import Mcfi.CallGraphTargets

namespace Mcfi

open LinkMap

/-!
# The order of the functions

The order of the functions decides which function of an inheritance group is the
hub of its star in the call graph, and nothing else, as long as no function is
filed by the attribute byte of the function before it.
-/

/-- Two call graphs with the same edges, and the same functions under each name. -/
structure SameCallgraphs (first second : LinkMap Nat Nat × LinkMap Name Function) :
    Prop where
  vertices : ∀ vertex, vertex ∈ first.1 ↔ vertex ∈ second.1
  edges : ∀ left right, Linked first.1 left right ↔ Linked second.1 left right
  functions : ∀ name f, Linked first.2 name f ↔ Linked second.2 name f

/--
Two call graphs with the same edges at the indirect branches and the same connected
components, and the same functions under each name.
-/
structure SameUpToHubs (icfs : List Icf)
    (first second : LinkMap Nat Nat × LinkMap Name Function) : Prop where
  vertices : ∀ vertex, vertex ∈ first.1 ↔ vertex ∈ second.1
  branches : ∀ icf ∈ icfs, ∀ key,
    Linked first.1 (markIcj icf.id) key ↔ Linked second.1 (markIcj icf.id) key
  components : ∀ left right,
    SameComponent first.1 left right ↔ SameComponent second.1 left right
  functions : ∀ name f, Linked first.2 name f ↔ Linked second.2 name f

/-- Two calls return both or not at all, and their results agree. -/
structure CallsAgree {α : Type} (Same : α → α → Prop) (first second : Rt α) : Prop where
  returns : (∃ result, first = .ok result) ↔ ∃ result, second = .ok result
  results : ∀ result other, first = .ok result → second = .ok other → Same result other

/--
Two call graphs of the same metadata with the functions in two orders, built from the
same closures, in which no function is filed by another one's attribute byte.
-/
structure Reorders {attrs otherAttrs : UInt8} {info : Metainfo} {functions : List Function}
    {callgraph otherGraph : LinkMap Nat Nat} {allFuncs otherFuncs : LinkMap Name Function}
    (parts : CallgraphParts attrs info callgraph allFuncs)
    (other : CallgraphParts otherAttrs { info with functions := functions } otherGraph
      otherFuncs) : Prop where
  perm : info.functions.Perm functions
  aliases : parts.aliasesTc = other.aliasesTc
  chacc : parts.chacc = other.chacc
  noStale : NoStaleVirtual info.classes attrs info.functions
  noStaleOther : NoStaleVirtual info.classes otherAttrs functions

namespace Reorders

variable {attrs otherAttrs : UInt8} {info : Metainfo} {functions : List Function}
  {callgraph otherGraph : LinkMap Nat Nat} {allFuncs otherFuncs : LinkMap Name Function}
  {parts : CallgraphParts attrs info callgraph allFuncs}
  {other : CallgraphParts otherAttrs { info with functions := functions } otherGraph
    otherFuncs}
  (reorders : Reorders parts other)
include reorders

/-- The implementations of a virtual method are the same in both orders. -/
theorem implements {className methodName : Name} {key : Nat} :
    Implements info.classes parts.groups.virtualFuncsByClsMtd className methodName key ↔
      Implements info.classes other.groups.virtualFuncsByClsMtd className methodName key := by
  rw [parts.implements_iff, other.implements_iff, reorders.aliases]
  simp only [reorders.perm.mem_iff]

/-- So are the functions that a virtual call may reach through a class. -/
theorem filed {className methodName name : Name} :
    Linked parts.groups.virtualFuncsByClsMtd (some className, some methodName) name ↔
      Linked other.groups.virtualFuncsByClsMtd (some className, some methodName) name := by
  rw [parts.groupsAre, other.groupsAre, linked_virtualFuncs reorders.noStale,
    linked_virtualFuncs reorders.noStaleOther, reorders.aliases]
  simp only [reorders.perm.mem_iff]

/-- A virtual call finds its functions under the same class. -/
theorem firstFiled (className methodName : Name) :
    Mcfi.firstFiled parts.groups parts.chacc className methodName =
      Mcfi.firstFiled other.groups other.chacc className methodName := by
  have present : ∀ className,
      (some className, some methodName) ∈ parts.groups.virtualFuncsByClsMtd ↔
        (some className, some methodName) ∈ other.groups.virtualFuncsByClsMtd := by
    intro className
    rw [parts.mem_virtuals_iff, other.mem_virtuals_iff]
    exact exists_congr fun name => reorders.filed
  simp only [Mcfi.firstFiled, reorders.chacc, present]

/-- The targets of an indirect branch are the same in both orders. -/
theorem targets (icf : Icf) (name : Name) :
    name ∈ icfTargets parts.groups parts.chacc icf ↔
      name ∈ icfTargets other.groups other.chacc icf := by
  cases isType : icf.ity with
  | virtualMethodCall className methodName =>
      rw [mem_virtualTargets isType, mem_virtualTargets isType, reorders.firstFiled]
      exact exists_congr fun _ => and_congr_right fun _ => reorders.filed
  | pointerToMethodCall type qualifiers =>
      rw [parts.pointer_target_iff isType, other.pointer_target_iff isType, reorders.aliases]
      simp only [reorders.perm.mem_iff]
  | normalCall type =>
      cases type with
      | none => simp [icfTargets, isType]
      | some type =>
          rw [parts.normal_target_iff isType, other.normal_target_iff isType,
            reorders.aliases]
          simp only [reorders.perm.mem_iff]

/-- What is connected in one order is connected in the other. -/
theorem connected (chaUndirected : Undirected info.cha) {left right : Nat}
    (path : Connected callgraph left right) : Connected otherGraph left right := by
  refine path.transport fun left right linked => ?_
  have undirected : Undirected otherGraph := other.undirected chaUndirected
  have branch : ∀ icf ∈ info.icfs, ∀ name ∈ icfTargets parts.groups parts.chacc icf,
      Connected otherGraph (markIcj icf.id) (markFunc name) :=
    fun icf listed name target =>
      other.connected_of_target listed ((reorders.targets icf name).mp target)
  rcases parts.linked_iff chaUndirected linked with
    ⟨icf, listed, name, target, ⟨rfl, rfl⟩ | ⟨rfl, rfl⟩⟩ |
    ⟨_, leftClass, rightClass, methodName, same, leftImplements, rightImplements⟩
  · exact branch icf listed name target
  · exact undirected.connected_symm (branch icf listed name target)
  · exact other.connected_of_related chaUndirected
      ⟨leftClass, rightClass, methodName, same, reorders.implements.mp leftImplements,
        reorders.implements.mp rightImplements⟩

/-- The orders can be exchanged. -/
theorem symm : Reorders other parts where
  perm := reorders.perm.symm
  aliases := reorders.aliases.symm
  chacc := reorders.chacc.symm
  noStale := reorders.noStaleOther
  noStaleOther := reorders.noStale

end Reorders

section Order

variable {info : Metainfo} {functions : List Function} {attrs otherAttrs : UInt8}

/-- Whether implementations are separate does not depend on the order. -/
theorem separate_iff_of_perm (reordered : info.functions.Perm functions) :
    SeparateImplementations info ↔
      SeparateImplementations { info with functions := functions } := by
  simp only [SeparateImplementations, reordered.mem_iff]

/--
The order of the functions and the initial attribute byte decide which functions are
the hubs, and nothing else, unless a stale attribute byte files a function.
-/
theorem callgraph_order (aliasesUndirected : Undirected info.aliases)
    (chaUndirected : Undirected info.cha) (reordered : info.functions.Perm functions)
    (noStale : NoStaleVirtual info.classes attrs info.functions)
    (noStaleOther : NoStaleVirtual info.classes otherAttrs functions) :
    CallsAgree (SameUpToHubs info.icfs) (buildCallgraph attrs info)
      (buildCallgraph otherAttrs { info with functions := functions }) := by
  refine ⟨?_, ?_⟩
  · have otherReturns : (∃ result, buildCallgraph otherAttrs
          { info with functions := functions } = .ok result) ↔
        SeparateImplementations { info with functions := functions } :=
      buildCallgraph_returns otherAttrs aliasesUndirected chaUndirected
    rw [buildCallgraph_returns attrs aliasesUndirected chaUndirected, otherReturns]
    exact separate_iff_of_perm reordered
  · rintro ⟨callgraph, allFuncs⟩ ⟨otherGraph, otherFuncs⟩ runs otherRuns
    obtain ⟨aliasesTc, aliasesRun, _⟩ := gTransitiveClosure_ok aliasesUndirected
    obtain ⟨chacc, chaccRun, _⟩ := gTransitiveClosure_ok chaUndirected
    obtain ⟨parts, isAliases, isChacc⟩ := exists_callgraphParts aliasesUndirected
      chaUndirected aliasesRun chaccRun runs
    obtain ⟨other, otherAliases, otherChacc⟩ :
        ∃ other : CallgraphParts otherAttrs { info with functions := functions } otherGraph
          otherFuncs, other.aliasesTc = aliasesTc ∧ other.chacc = chacc :=
      exists_callgraphParts aliasesUndirected chaUndirected aliasesRun chaccRun otherRuns
    have reorders : Reorders parts other :=
      ⟨reordered, isAliases.trans otherAliases.symm, isChacc.trans otherChacc.symm, noStale,
        noStaleOther⟩
    have connected : ∀ left right,
        Connected callgraph left right ↔ Connected otherGraph left right := fun _ _ =>
      ⟨reorders.connected chaUndirected, reorders.symm.connected chaUndirected⟩
    have vertices : ∀ vertex, vertex ∈ callgraph ↔ vertex ∈ otherGraph := by
      intro vertex
      rw [parts.mem_callgraph_iff chaUndirected, other.mem_callgraph_iff chaUndirected]
      simp only [connected]
    refine ⟨vertices, fun icf _ key => ?_, fun left right => ?_, fun name f => ?_⟩
    · rw [parts.linked_branch_iff chaUndirected, other.linked_branch_iff chaUndirected]
      simp only [reorders.targets]
    · exact and_congr (vertices left) (connected left right)
    · rw [parts.linked_allFuncs_iff, other.linked_allFuncs_iff, reordered.mem_iff]

open AliasExample in
/-- A class with a virtual destructor, which has three symbols. -/
def destructors (functions : List Function) : Metainfo where
  icfs := []
  functions := functions
  classes := classTables
  cha := gAddEdge ∅ derivedClass baseClass
  fats := ∅
  fatsInData := ∅
  fatsInCode := ∅
  aliases := ∅
  definedCtors := ∅

open AliasExample in
/-- The destructor of the class under one of its symbols. -/
def destructorAt (symbol : Name) : Function :=
  destructorOf symbol baseClass

/-- The three symbols in one order. -/
def firstOrder : List Function :=
  [destructorAt (Name.ofPtr 64), destructorAt (Name.ofPtr 65), destructorAt (Name.ofPtr 66)]

/-- Another one of them comes first. -/
def secondOrder : List Function :=
  [destructorAt (Name.ofPtr 65), destructorAt (Name.ofPtr 64), destructorAt (Name.ofPtr 66)]

/-- The functions that the first one is linked with depend on the order. -/
theorem order_changes_hub :
    ¬ ∀ (attrs otherAttrs : UInt8) (info : Metainfo) (functions : List Function),
      Undirected info.aliases → Undirected info.cha → info.functions.Perm functions →
        CallsAgree SameCallgraphs (buildCallgraph attrs info)
          (buildCallgraph otherAttrs { info with functions := functions }) := by
  intro agree
  have agrees := (agree 0 0 (destructors firstOrder) secondOrder undirected_empty
    (undirected_empty.join _ _) (List.Perm.swap _ _ _)).results
  have hub : (buildCallgraph 0 (destructors firstOrder)).toOption.any
      fun result => gDirectedEdgeIn result.1 64 66 := by
    decide +kernel
  have noHub : (buildCallgraph 0 (destructors secondOrder)).toOption.any
      fun result => !gDirectedEdgeIn result.1 64 66 := by
    decide +kernel
  cases first : buildCallgraph 0 (destructors firstOrder) with
  | error fault =>
      rw [first] at hub
      cases hub
  | ok result =>
      cases second : buildCallgraph 0 (destructors secondOrder) with
      | error fault =>
          rw [second] at noHub
          cases noHub
      | ok other =>
          have edges := (agrees result other first second).edges 64 66
          rw [first] at hub
          rw [second] at noHub
          simp [Except.toOption, gDirectedEdgeIn] at hub noHub
          exact noHub (edges.mp hub)

/-- Without such a choice the two orders agree on everything else. -/
theorem callgraph_order_destructors :
    CallsAgree (SameUpToHubs (destructors firstOrder).icfs)
      (buildCallgraph 0 (destructors firstOrder))
      (buildCallgraph 1 { destructors firstOrder with functions := secondOrder }) := by
  refine callgraph_order undirected_empty (undirected_empty.join _ _) (List.Perm.swap _ _ _)
    (noStaleVirtual_of_entries ?_ 0) (noStaleVirtual_of_entries ?_ 1)
  all_goals
    intro f listed _ _
    revert f
    decide +kernel

end Order

end Mcfi
