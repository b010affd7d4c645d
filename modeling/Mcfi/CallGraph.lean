import Mcfi.Metadata

namespace Mcfi

open LinkMap

/-!
# The call graph

`build_callgraph` groups the functions by name, by class and method, and by
type; relates the virtual methods of each inheritance group; and links each
indirect branch with the functions it may reach.

The attribute byte is one local variable of `build_callgraph` that
`_is_instance_method` writes only for the methods it finds, so a function
without a method entry is grouped with the byte of the function before it.  The
byte the variable holds at first is a parameter.
-/

/-- `g_add_directed_l2_edge`, with the two outer keys taken together. -/
def gAddDirectedL2Edges {α β : Type} [DecidableEq α] [DecidableEq β]
    (graph : LinkMap (α × α) β) (outer inner : α) (values : List β) :
    LinkMap (α × α) β :=
  graph.linkAll (values.map fun value => ((outer, inner), value))

/-- `g_find_l2_vertex`, returning the value of the vertex found. -/
def gFindL2Vertex {α β : Type} [DecidableEq α]
    (graph : LinkMap (α × α) β) (outer inner : α) : Option (KeySet β) :=
  dictFind graph (outer, inner)

/-- The attributes the class table records for a function's method. -/
def methodAttrs (classes : ClassTable) (f : Function) : Option UInt8 :=
  match f.className, f.methodName with
  | some className, some methodName =>
      match dictFind classes className with
      | none => none
      | some methods => dictFind methods methodName
  | _, _ => none

/-- `_is_instance_method`: the answer and the attribute byte left behind. -/
def isInstanceMethod (classes : ClassTable) (f : Function) (attrs : UInt8) :
    Bool × UInt8 :=
  match methodAttrs classes f with
  | none => (false, attrs)
  | some found => (!isStatic found, found)

/-- `_func_or_alias_addr_taken`. -/
def funcOrAliasAddrTaken (fats : KeySet Name) (name : Name)
    (aliasesTc : LinkMap Name Name) : Bool :=
  dictIn fats name ||
    (aliasesTc.targets name).any fun other => other ≠ name && dictIn fats other

/-- The dictionaries that `build_callgraph` fills while it walks the functions. -/
structure FuncGroups where
  allFuncsByName : LinkMap Name Function
  virtualFuncsByClsMtd : LinkMap (Option Name × Option Name) Name
  globalFuncsByType : LinkMap Name Name
  instanceFuncsByType : LinkMap Name Name
  instanceFuncsByConstType : LinkMap Name Name
  instanceFuncsByVolatileType : LinkMap Name Name
  instanceFuncsByConstVolatileType : LinkMap Name Name
  attrs : UInt8

/-- The dictionaries at the start, and the uninitialised attribute byte. -/
def FuncGroups.start (attrs : UInt8) : FuncGroups where
  allFuncsByName := ∅
  virtualFuncsByClsMtd := ∅
  globalFuncsByType := ∅
  instanceFuncsByType := ∅
  instanceFuncsByConstType := ∅
  instanceFuncsByVolatileType := ∅
  instanceFuncsByConstVolatileType := ∅
  attrs := attrs

/-- `build_callgraph`, the body of the loop over the functions. -/
def groupFunction (classes : ClassTable) (fats : KeySet Name)
    (aliasesTc : LinkMap Name Name) (groups : FuncGroups) (f : Function) :
    FuncGroups :=
  let aliases := aliasesTc.targets f.name
  let groups := { groups with
    allFuncsByName := groups.allFuncsByName.linkAll
      ((f.name, f) ::
        (aliases.filter fun other => other ≠ f.name).map fun other =>
          (other, f)) }
  let (instanceMethod, attrs) := isInstanceMethod classes f groups.attrs
  let groups := { groups with attrs := attrs }
  let groups :=
    if isVirtual attrs then
      { groups with
        virtualFuncsByClsMtd :=
          gAddDirectedL2Edges groups.virtualFuncsByClsMtd
            f.className f.methodName (f.name :: aliases) }
    else
      groups
  match f.type with
  | none => groups
  | some type =>
      if !funcOrAliasAddrTaken fats f.name aliasesTc then
        groups
      else if !instanceMethod then
        { groups with
          globalFuncsByType :=
            gAddDirectedEdge groups.globalFuncsByType type f.name }
      else if !isConstant attrs && !isVolatile attrs then
        { groups with
          instanceFuncsByType := groups.instanceFuncsByType.linkAll
            ((f.name :: aliases).map fun name => (type, name)) }
      else if isConstant attrs && !isVolatile attrs then
        { groups with
          instanceFuncsByConstType :=
            gAddDirectedEdge groups.instanceFuncsByConstType type f.name }
      else if !isConstant attrs && isVolatile attrs then
        { groups with
          instanceFuncsByVolatileType :=
            gAddDirectedEdge groups.instanceFuncsByVolatileType type f.name }
      else
        { groups with
          instanceFuncsByConstVolatileType :=
            gAddDirectedEdge groups.instanceFuncsByConstVolatileType
              type f.name }

/-- The class table holds a virtual method. -/
def virtualEntry (classes : ClassTable) (className methodName : Name) : Bool :=
  match dictFind classes className with
  | none => false
  | some methods =>
      match dictFind methods methodName with
      | none => false
      | some attrs => isVirtual attrs

/--
`_build_cha_relations`, the innermost loop's body: collect the functions of one
class of the group that implement the method.
-/
def chaCollect (classes : ClassTable)
    (virtuals : LinkMap (Option Name × Option Name) Name) (methodName : Name)
    (state : LinkMap Name Name × KeySet Nat) (className : Name) :
    Rt (LinkMap Name Name × KeySet Nat) :=
  if virtualEntry classes className methodName &&
      !gDirectedEdgeIn state.1 className methodName then do
    let explored := gAddDirectedEdge state.1 className methodName
    match gFindL2Vertex virtuals (some className) (some methodName) with
    | none => return (explored, state.2)
    | some names =>
        let eqc ← names.keys.foldlM
          (fun eqc name => dictAdd eqc (markFunc name) ()) state.2
        return (explored, eqc)
  else
    return state

/-- The graph under construction and the explored class methods. -/
structure ChaState where
  callgraph : LinkMap Nat Nat
  explored : LinkMap Name Name

/-- `_build_cha_relations`, the body of the loop over a class's methods. -/
def chaMethod (classes : ClassTable)
    (virtuals : LinkMap (Option Name × Option Name) Name) (group : KeySet Name)
    (className : Name) (state : ChaState) (method : Name × UInt8) :
    Rt ChaState :=
  if isVirtual method.2 &&
      !gDirectedEdgeIn state.explored className method.1 then do
    let (explored, eqc) ← group.keys.foldlM
      (chaCollect classes virtuals method.1) (state.explored, ∅)
    return ⟨gAddCcToG state.callgraph eqc, explored⟩
  else
    return state

/-- `_build_cha_relations`, the body of the loop over the classes of a group. -/
def chaClass (classes : ClassTable)
    (virtuals : LinkMap (Option Name × Option Name) Name) (group : KeySet Name)
    (state : ChaState) (className : Name) : Rt ChaState :=
  match dictFind classes className with
  | none => return state
  | some methods =>
      methods.entries.foldlM (chaMethod classes virtuals group className) state

/-- `_build_cha_relations`. -/
def buildChaRelations (callgraph : LinkMap Nat Nat) (classes : ClassTable)
    (cha : LinkMap Name Name)
    (virtuals : LinkMap (Option Name × Option Name) Name) :
    Rt (LinkMap Nat Nat) := do
  let chaLcc ← gGetLcc cha
  let final ← chaLcc.foldlM (fun state group =>
    group.keys.foldlM (chaClass classes virtuals group) state) ⟨callgraph, ∅⟩
  return final.callgraph

/-- The functions `build_callgraph` links with an indirect branch. -/
def icfTargets (groups : FuncGroups) (chacc : LinkMap Name Name) (icf : Icf) :
    List Name :=
  match icf.ity with
  | .virtualMethodCall className methodName =>
      match gFindL2Vertex groups.virtualFuncsByClsMtd
          (some className) (some methodName) with
      | some names => names.keys
      | none =>
          -- the first class of the inheritance group with an entry, then break
          match (chacc.targets className).findSome? fun other =>
              gFindL2Vertex groups.virtualFuncsByClsMtd
                (some other) (some methodName) with
          | some names => names.keys
          | none => []
  | .pointerToMethodCall type attrs =>
      if !isConstant attrs && !isVolatile attrs then
        groups.instanceFuncsByType.targets type
      else if isConstant attrs && !isVolatile attrs then
        groups.instanceFuncsByConstType.targets type
      else if !isConstant attrs && isVolatile attrs then
        groups.instanceFuncsByVolatileType.targets type
      else
        groups.instanceFuncsByConstVolatileType.targets type
  | .normalCall none => []
  | .normalCall (some type) => groups.globalFuncsByType.targets type

/-- `build_callgraph`, the body of the loop over the indirect branches. -/
def addIcfEdges (groups : FuncGroups) (chacc : LinkMap Name Name)
    (callgraph : LinkMap Nat Nat) (icf : Icf) : LinkMap Nat Nat :=
  gAddEdges callgraph ((icfTargets groups chacc icf).map fun name =>
    (markIcj icf.id, markFunc name))

/--
`build_callgraph`: the call graph and `all_funcs_grouped_by_name`.  The latter
is keyed by function pointer in the source; equal records add equal edges later
on, so here it is keyed by the record.
-/
def buildCallgraph (attrs : UInt8) (info : Metainfo) :
    Rt (LinkMap Nat Nat × LinkMap Name Function) := do
  let aliasesTc ← gTransitiveClosure info.aliases
  let groups := info.functions.foldl
    (groupFunction info.classes info.fats aliasesTc) (FuncGroups.start attrs)
  let chacc ← gTransitiveClosure info.cha
  let callgraph ← buildChaRelations ∅ info.classes info.cha
    groups.virtualFuncsByClsMtd
  return (info.icfs.foldl (addIcfEdges groups chacc) callgraph,
    groups.allFuncsByName)

end Mcfi
