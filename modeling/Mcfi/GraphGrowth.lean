import Mcfi.RetGraph

namespace Mcfi

open LinkMap

/-!
# Growing metadata

When metadata grows, and classifies the functions it had as before, every path of
the old call graph is a path of the new one.  The order of the records does not
matter: it only decides through which class of an inheritance group a virtual call is
linked, and the functions of the group that implement the method are connected.
-/

section Populated

variable {classes : ClassTable}
  {virtuals : LinkMap (Option Name × Option Name) Name}
  {cha : LinkMap Name Name}

/-- What adding a set of related functions keeps, relating all methods keeps. -/
theorem buildChaRelations_keeps (Keeps : LinkMap Nat Nat → Prop)
    (adds : ∀ graph eqc, Keeps graph → Keeps (gAddCcToG graph eqc))
    {start result : LinkMap Nat Nat} (initial : Keeps start)
    (runs : buildChaRelations start classes cha virtuals = .ok result) :
    Keeps result := by
  obtain ⟨components, _, runs⟩ := bind_eq_ok.mp runs
  obtain ⟨final, looped, stored⟩ := bind_eq_ok.mp runs
  cases stored
  refine foldlM_invariant (fun _ state => Keeps state.callgraph) initial ?_ looped
  intro _ group _ state next _ kept groupRuns
  refine foldlM_invariant (fun _ state => Keeps state.callgraph) kept ?_ groupRuns
  intro _ className _ state next _ kept classRuns
  rw [chaClass] at classRuns
  split at classRuns
  next =>
    cases classRuns
    exact kept
  next methods _ =>
    refine foldlM_invariant (fun _ state => Keeps state.callgraph) kept ?_ classRuns
    intro _ method _ state next _ kept methodRuns
    rw [chaMethod] at methodRuns
    split at methodRuns
    next =>
      obtain ⟨_, _, stored⟩ := bind_eq_ok.mp methodRuns
      cases stored
      exact adds _ _ kept
    next =>
      cases methodRuns
      exact kept

variable {attrs : UInt8} {info : Metainfo} {callgraph : LinkMap Nat Nat}
  {allFuncs : LinkMap Name Function}

/-- Every vertex of the call graph has an edge. -/
theorem CallgraphParts.populated
    (parts : CallgraphParts attrs info callgraph allFuncs) : Populated callgraph := by
  rw [parts.callgraphIs]
  have related : Populated parts.chaGraph := by
    refine buildChaRelations_keeps Populated (fun graph eqc populated => ?_)
      populated_empty parts.chaRuns
    rw [gAddCcToG]
    split
    next => exact populated
    next => exact populated.joinAll _
  generalize parts.chaGraph = graph at related
  generalize info.icfs = icfs
  induction icfs generalizing graph with
  | nil => exact related
  | cons icf rest inductionHypothesis =>
      exact inductionHypothesis _ (related.joinAll _)

end Populated

section Targets

variable {attrs : UInt8} {info : Metainfo} {callgraph : LinkMap Nat Nat}
  {allFuncs : LinkMap Name Function}
  (parts : CallgraphParts attrs info callgraph allFuncs)

namespace CallgraphParts

/-- A function is filed under its name and its aliases. -/
theorem nameOrAlias_iff {f : Function} {name : Name} :
    NameOrAlias parts.aliasesTc f name ↔
      name = f.name ∨ SameComponent info.aliases f.name name := by
  rw [NameOrAlias, parts.linkedAliases]

/-- The address of a function is taken under one of its names. -/
theorem addrTaken_iff {f : Function} :
    funcOrAliasAddrTaken info.fats f.name parts.aliasesTc = true ↔
      ∃ name ∈ info.fats, NameOrAlias parts.aliasesTc f name := by
  rw [funcOrAliasAddrTaken, Bool.or_eq_true, dictIn_iff, List.any_eq_true]
  simp only [NameOrAlias, mem_targets, Bool.and_eq_true, decide_eq_true_eq, dictIn_iff]
  constructor
  · rintro (taken | ⟨other, linked, _, taken⟩)
    · exact ⟨f.name, taken, .inl rfl⟩
    · exact ⟨other, taken, .inr linked⟩
  · rintro ⟨name, taken, rfl | linked⟩
    · exact .inl taken
    · by_cases same : name = f.name
      · exact .inl (same ▸ taken)
      · exact .inr ⟨name, linked, same, taken⟩

/-- The functions that a virtual call may reach through a class. -/
def Filed (className methodName name : Name) : Prop :=
  Linked parts.groups.virtualFuncsByClsMtd (some className, some methodName) name

/-- What a virtual call is linked with belongs to its class or to its group. -/
theorem filed_of_target {icf : Icf} {className methodName name : Name}
    (isVirtual : icf.ity = .virtualMethodCall className methodName)
    (target : name ∈ icfTargets parts.groups parts.chacc icf) :
    parts.Filed className methodName name ∨
      ∃ other, SameComponent info.cha className other ∧
        parts.Filed other methodName name := by
  rw [icfTargets, isVirtual] at target
  simp only [] at target
  split at target
  next names found =>
    exact .inl ⟨names, found, OrdDict.mem_keys.mp target⟩
  next =>
    split at target
    next names found =>
      obtain ⟨other, listed, filed⟩ := List.exists_of_findSome?_eq_some found
      exact .inr ⟨other, (parts.linkedChacc _ _).mp (mem_targets.mp listed),
        names, filed, OrdDict.mem_keys.mp target⟩
    next => cases target

/-- A virtual call is linked with the functions of its own class. -/
theorem target_of_filed {icf : Icf} {className methodName name : Name}
    (isVirtual : icf.ity = .virtualMethodCall className methodName)
    (filed : parts.Filed className methodName name) :
    name ∈ icfTargets parts.groups parts.chacc icf := by
  obtain ⟨names, found, inside⟩ := filed
  rw [icfTargets, isVirtual]
  simp only [gFindL2Vertex, dictFind, found]
  exact OrdDict.mem_keys.mpr inside

/-- A virtual call is linked with some function of its group when there is one. -/
theorem exists_target_of_group {icf : Icf} {className methodName name other : Name}
    (isVirtual : icf.ity = .virtualMethodCall className methodName)
    (same : SameComponent info.cha className other)
    (filed : parts.Filed other methodName name) :
    ∃ target ∈ icfTargets parts.groups parts.chacc icf,
      ∃ further, SameComponent info.cha className further ∧
        parts.Filed further methodName target := by
  have populated : Populated parts.groups.virtualFuncsByClsMtd := by
    rw [parts.groupsAre]
    exact populated_virtualFuncs _ _
  by_cases direct : (some className, some methodName) ∈
      parts.groups.virtualFuncsByClsMtd
  · obtain ⟨target, linked⟩ := populated _ direct
    exact ⟨target, parts.target_of_filed isVirtual linked, className,
      ⟨same.1, Relation.ReflTransGen.refl⟩, linked⟩
  · obtain ⟨names, located, _⟩ := filed
    have fallback : (((parts.chacc.targets className).findSome? fun other =>
        gFindL2Vertex parts.groups.virtualFuncsByClsMtd
          (some other) (some methodName))).isSome := by
      rw [List.findSome?_isSome_iff]
      refine ⟨other, mem_targets.mpr ((parts.linkedChacc _ _).mpr same), ?_⟩
      rw [gFindL2Vertex, dictFind, located]
      rfl
    obtain ⟨others, found⟩ := Option.isSome_iff_exists.mp fallback
    obtain ⟨further, listed, isFiled⟩ := List.exists_of_findSome?_eq_some found
    obtain ⟨target, linked⟩ := populated _ (OrdDict.mem_of_find isFiled)
    refine ⟨target, ?_, further, (parts.linkedChacc _ _).mp (mem_targets.mp listed),
      linked⟩
    have noEntry : gFindL2Vertex parts.groups.virtualFuncsByClsMtd
        (some className) (some methodName) = none :=
      OrdDict.find_eq_none.mpr direct
    rw [icfTargets, isVirtual]
    simp only [noEntry, found]
    obtain ⟨furtherNames, furtherFound, inside⟩ := linked
    rw [gFindL2Vertex, dictFind, furtherFound] at isFiled
    cases isFiled
    exact OrdDict.mem_keys.mpr inside

/-- The functions that a call through a method pointer is linked with. -/
theorem pointer_target_iff {icf : Icf} {type name : Name} {qualifiers : UInt8}
    (isPointer : icf.ity = .pointerToMethodCall type qualifiers) :
    name ∈ icfTargets parts.groups parts.chacc icf ↔
      ∃ f ∈ info.functions, f.type = some type ∧
        funcOrAliasAddrTaken info.fats f.name parts.aliasesTc = true ∧
        ∃ found, instanceAttrs info.classes f = some found ∧
          isConstant found = isConstant qualifiers ∧
          isVolatile found = isVolatile qualifiers ∧
          (name = f.name ∨ isConstant qualifiers = false ∧
            isVolatile qualifiers = false ∧ NameOrAlias parts.aliasesTc f name) := by
  cases isConst : isConstant qualifiers <;> cases isVol : isVolatile qualifiers
  · have plain : icfTargets parts.groups parts.chacc icf =
        parts.groups.instanceFuncsByType.targets type := by
      simp [icfTargets, isPointer, isConst, isVol]
    rw [plain, mem_targets, parts.groupsAre, linked_instanceFuncs]
    simp only [NameOrAlias]
    grind
  · have volatile : icfTargets parts.groups parts.chacc icf =
        parts.groups.instanceFuncsByVolatileType.targets type := by
      simp [icfTargets, isPointer, isConst, isVol]
    rw [volatile, mem_targets, parts.groupsAre, linked_instanceVolatileFuncs]
    grind
  · have const : icfTargets parts.groups parts.chacc icf =
        parts.groups.instanceFuncsByConstType.targets type := by
      simp [icfTargets, isPointer, isConst, isVol]
    rw [const, mem_targets, parts.groupsAre, linked_instanceConstFuncs]
    grind
  · have both : icfTargets parts.groups parts.chacc icf =
        parts.groups.instanceFuncsByConstVolatileType.targets type := by
      simp [icfTargets, isPointer, isConst, isVol]
    rw [both, mem_targets, parts.groupsAre, linked_instanceConstVolatileFuncs]
    grind

/-- The functions that a call through a function pointer is linked with. -/
theorem normal_target_iff {icf : Icf} {type name : Name}
    (isNormal : icf.ity = .normalCall (some type)) :
    name ∈ icfTargets parts.groups parts.chacc icf ↔
      ∃ f ∈ info.functions, f.type = some type ∧ name = f.name ∧
        funcOrAliasAddrTaken info.fats f.name parts.aliasesTc = true ∧
        instanceAttrs info.classes f = none := by
  rw [icfTargets, isNormal, parts.groupsAre]
  simp only [mem_targets, linked_globalFuncs]

/-- Related methods are connected in the call graph. -/
theorem connected_of_related (chaUndirected : Undirected info.cha) {left right : Nat}
    (related : ChaRelated info.classes parts.groups.virtualFuncsByClsMtd info.cha
      left right) :
    Connected callgraph left right := by
  have connected := (buildChaRelations_spec chaUndirected parts.chaRuns).2.2.2
    left right related
  rw [parts.callgraphIs]
  exact connected.transport fun _ _ linked => connected_of_linked
    ((linked_foldl_addIcfEdges _ _ _ _ _ _).mpr (.inr linked))

/-- A branch is connected with the functions it is linked with. -/
theorem connected_of_target {icf : Icf} (listed : icf ∈ info.icfs) {name : Name}
    (target : name ∈ icfTargets parts.groups parts.chacc icf) :
    Connected callgraph (markIcj icf.id) (markFunc name) := by
  rw [parts.callgraphIs]
  exact connected_of_linked ((linked_foldl_addIcfEdges _ _ _ _ _ _).mpr
    (.inl ⟨icf, listed, name, target, .inl ⟨rfl, rfl⟩⟩))

end CallgraphParts

end Targets

/-- A plain function that a call through a function pointer is linked with. -/
structure Metainfo.PlainTarget (info : Metainfo) (f : Function) : Prop where
  plain : instanceAttrs info.classes f = none
  called : ∃ icf ∈ info.icfs, ∃ type,
    icf.ity = .normalCall (some type) ∧ f.type = some type
  taken : ∃ name ∈ info.fats, name = f.name ∨ SameComponent info.aliases f.name name

/--
Metadata that has all of another, and takes its instance methods and the targets of
its function pointers for what they were.
-/
structure Metainfo.Grows (first second : Metainfo) : Prop where
  icfs : ∀ icf ∈ first.icfs, icf ∈ second.icfs
  functions : ∀ f ∈ first.functions, f ∈ second.functions
  fats : ∀ name ∈ first.fats, name ∈ second.fats
  methods : ∀ f ∈ first.functions, ∀ attrs,
    instanceAttrs first.classes f = some attrs →
      instanceAttrs second.classes f = some attrs
  plain : ∀ f ∈ first.functions, first.PlainTarget f →
    instanceAttrs second.classes f = none
  entries : ∀ className methodName,
    virtualEntry first.classes className methodName = true →
      virtualEntry second.classes className methodName = true
  cha : ∀ left right, SameComponent first.cha left right →
    SameComponent second.cha left right
  aliases : ∀ left right, SameComponent first.aliases left right →
    SameComponent second.aliases left right

section Growth

variable {first second : Metainfo} (grows : first.Grows second)
  {firstAttrs secondAttrs : UInt8} {small large : LinkMap Nat Nat}
  {smallFuncs largeFuncs : LinkMap Name Function}
  (old : CallgraphParts firstAttrs first small smallFuncs)
  (new : CallgraphParts secondAttrs second large largeFuncs)
include grows

theorem Metainfo.Grows.nameOrAlias {f : Function} {name : Name}
    (filed : NameOrAlias old.aliasesTc f name) : NameOrAlias new.aliasesTc f name :=
  new.nameOrAlias_iff.mpr
    ((old.nameOrAlias_iff.mp filed).imp_right (grows.aliases _ _))

theorem Metainfo.Grows.addrTaken {f : Function}
    (taken : funcOrAliasAddrTaken first.fats f.name old.aliasesTc = true) :
    funcOrAliasAddrTaken second.fats f.name new.aliasesTc = true := by
  obtain ⟨name, listed, filed⟩ := old.addrTaken_iff.mp taken
  exact new.addrTaken_iff.mpr
    ⟨name, grows.fats name listed, grows.nameOrAlias old new filed⟩

/-- A function that implements a virtual method still implements it. -/
theorem Metainfo.Grows.implements {className methodName : Name} {key : Nat}
    (implements : Implements first.classes old.groups.virtualFuncsByClsMtd
      className methodName key) :
    Implements second.classes new.groups.virtualFuncsByClsMtd
      className methodName key := by
  obtain ⟨isEntry, name, linked, rfl⟩ := implements
  have newEntry := grows.entries className methodName isEntry
  rw [old.groupsAre] at linked
  obtain ⟨f, listed, ofClass, ofMethod, filed⟩ :=
    (linked_virtualFuncs_of_entry isEntry _ _ name).mp linked
  refine ⟨newEntry, name, ?_, rfl⟩
  rw [new.groupsAre]
  exact (linked_virtualFuncs_of_entry newEntry _ _ name).mpr
    ⟨f, grows.functions f listed, ofClass, ofMethod, grows.nameOrAlias old new filed⟩

omit grows in
/-- Without stale attribute bytes what is filed implements a virtual method. -/
theorem CallgraphParts.implements_of_filed
    (noStale : NoStaleVirtual first.classes firstAttrs first.functions)
    {className methodName name : Name} (filed : old.Filed className methodName name) :
    Implements first.classes old.groups.virtualFuncsByClsMtd className methodName
      (markFunc name) := by
  have linked := filed
  rw [CallgraphParts.Filed, old.groupsAre] at linked
  obtain ⟨_, _, _, _, isEntry, _⟩ :=
    (linked_virtualFuncs noStale className methodName name).mp linked
  exact ⟨isEntry, name, filed, rfl⟩

include new in
/-- Related methods are still connected. -/
theorem Metainfo.Grows.related (newCha : Undirected second.cha) {left right : Nat}
    (related : ChaRelated first.classes old.groups.virtualFuncsByClsMtd first.cha
      left right) :
    Connected large left right := by
  obtain ⟨leftClass, rightClass, methodName, same, leftImplements, rightImplements⟩ :=
    related
  exact new.connected_of_related newCha ⟨leftClass, rightClass, methodName,
    grows.cha _ _ same, grows.implements old new leftImplements,
    grows.implements old new rightImplements⟩

variable (newCha : Undirected second.cha)
  (oldFiled : NoStaleVirtual first.classes firstAttrs first.functions)
  (newFiled : NoStaleVirtual second.classes secondAttrs second.functions)
include new newCha oldFiled newFiled

/-- A virtual call is still connected with what it was linked with. -/
theorem Metainfo.Grows.virtualTarget {icf : Icf} (listed : icf ∈ first.icfs)
    {className methodName name : Name}
    (isVirtual : icf.ity = .virtualMethodCall className methodName)
    (target : name ∈ icfTargets old.groups old.chacc icf) :
    Connected large (markIcj icf.id) (markFunc name) := by
  have stillListed := grows.icfs icf listed
  rcases old.filed_of_target isVirtual target with direct | ⟨other, same, filed⟩
  · obtain ⟨_, _, linked, isName⟩ := grows.implements old new
      (old.implements_of_filed oldFiled direct)
    obtain rfl := markFunc_inj.mp isName
    exact new.connected_of_target stillListed (new.target_of_filed isVirtual linked)
  · -- the call may be linked through another class of the group now
    have implements := grows.implements old new (old.implements_of_filed oldFiled filed)
    obtain ⟨_, _, linked, isName⟩ := implements
    obtain rfl := markFunc_inj.mp isName
    have newSame := grows.cha _ _ same
    obtain ⟨newTarget, newListed, further, furtherSame, furtherFiled⟩ :=
      new.exists_target_of_group isVirtual newSame linked
    refine (new.connected_of_target stillListed newListed).trans
      (new.connected_of_related newCha ⟨further, other, methodName,
        (furtherSame.symm newCha).trans newSame,
        new.implements_of_filed newFiled furtherFiled, ?_⟩)
    exact ⟨(new.implements_of_filed newFiled linked).1, name, linked, rfl⟩

/-- A branch is still connected with what it was linked with. -/
theorem Metainfo.Grows.target {icf : Icf} (listed : icf ∈ first.icfs) {name : Name}
    (target : name ∈ icfTargets old.groups old.chacc icf) :
    Connected large (markIcj icf.id) (markFunc name) := by
  have stillListed := grows.icfs icf listed
  cases type : icf.ity with
  | virtualMethodCall className methodName =>
      exact grows.virtualTarget old new newCha oldFiled newFiled listed type target
  | pointerToMethodCall pointer qualifiers =>
      obtain ⟨f, isFunction, ofType, taken, found, located, isConst, isVol, named⟩ :=
        (old.pointer_target_iff type).mp target
      refine new.connected_of_target stillListed ((new.pointer_target_iff type).mpr
        ⟨f, grows.functions f isFunction, ofType, grows.addrTaken old new taken, found,
          grows.methods f isFunction found located, isConst, isVol, ?_⟩)
      exact named.imp_right fun ⟨notConst, notVol, filed⟩ =>
        ⟨notConst, notVol, grows.nameOrAlias old new filed⟩
  | normalCall pointer =>
      cases pointer with
      | none =>
          rw [icfTargets, type] at target
          cases target
      | some pointer =>
          obtain ⟨f, isFunction, ofType, named, taken, isPlain⟩ :=
            (old.normal_target_iff type).mp target
          have plainTarget : first.PlainTarget f := by
            refine ⟨isPlain, ⟨icf, listed, pointer, type, ofType⟩, ?_⟩
            obtain ⟨taking, inFats, filed⟩ := old.addrTaken_iff.mp taken
            exact ⟨taking, inFats, old.nameOrAlias_iff.mp filed⟩
          exact new.connected_of_target stillListed ((new.normal_target_iff type).mpr
            ⟨f, grows.functions f isFunction, ofType, named,
              grows.addrTaken old new taken, grows.plain f isFunction plainTarget⟩)

include old in
/-- An edge of the old call graph joins two vertices of one new component. -/
theorem Metainfo.Grows.linked (oldCha : Undirected first.cha) {left right : Nat}
    (linked : Linked small left right) :
    left ≠ right ∧ Connected large left right := by
  have undirected := new.undirected newCha
  rcases old.linked_iff oldCha linked with
    ⟨icf, listed, name, target, ⟨rfl, rfl⟩ | ⟨rfl, rfl⟩⟩ | ⟨distinct, related⟩
  · exact ⟨(markFunc_ne_markIcj _ _).symm,
      grows.target old new newCha oldFiled newFiled listed target⟩
  · exact ⟨markFunc_ne_markIcj _ _, undirected.connected_symm
      (grows.target old new newCha oldFiled newFiled listed target)⟩
  · exact ⟨distinct, grows.related old new newCha related⟩

include old in
/-- The components of the old call graph lie in those of the new one. -/
theorem Metainfo.Grows.sameComponent (oldCha : Undirected first.cha)
    {left right : Nat} (same : SameComponent small left right) :
    SameComponent large left right :=
  same.transport old.populated fun _ _ linked =>
    grows.linked old new newCha oldFiled newFiled oldCha linked

/-- Modules that have the return addresses of others. -/
def KeepsReturns (first second : List CodeModule) : Prop :=
  ∀ codeModule ∈ first, ∃ later ∈ second, raEdges later = raEdges codeModule

omit new newCha oldFiled newFiled in
/-- An edge that the old return graph adds is added to the new one. -/
theorem Metainfo.Grows.retEdge {firstModules secondModules : List CodeModule}
    (old : CallgraphParts firstAttrs first small smallFuncs)
    (new : CallgraphParts secondAttrs second large largeFuncs)
    (returns : KeepsReturns firstModules secondModules) {left right : Nat}
    (edge : RetEdge smallFuncs firstModules left right) :
    RetEdge largeFuncs secondModules left right := by
  rcases edge with ⟨name, f, filed, inEdges⟩ | ⟨codeModule, loaded, inEdges⟩
  · obtain ⟨listed, named⟩ := (old.linked_allFuncs_iff name f).mp filed
    exact .inl ⟨name, f, (new.linked_allFuncs_iff name f).mpr
      ⟨grows.functions f listed, named.imp_right (grows.aliases _ _)⟩, inEdges⟩
  · obtain ⟨later, stillLoaded, same⟩ := returns codeModule loaded
    exact .inr ⟨later, stillLoaded, same ▸ inEdges⟩

include old in
/-- The components of the old return graph lie in those of the new one. -/
theorem Metainfo.Grows.sameReturnComponent (oldCha : Undirected first.cha)
    {firstModules secondModules : List CodeModule}
    (returns : KeepsReturns firstModules secondModules) {left right : Nat}
    (same : SameComponent (buildRetgraph small smallFuncs firstModules) left right) :
    SameComponent (buildRetgraph large largeFuncs secondModules) left right := by
  have undirected := undirected_buildRetgraph (new.undirected newCha) largeFuncs
    secondModules
  refine same.transport (populated_buildRetgraph old.populated) ?_
  intro left right linked
  rcases linked_buildRetgraph.mp linked with edge | reversed | inCallgraph
  · exact ⟨edge.ne, connected_of_retEdge (grows.retEdge old new returns edge)⟩
  · exact ⟨reversed.ne.symm, undirected.connected_symm
      (connected_of_retEdge (grows.retEdge old new returns reversed))⟩
  · obtain ⟨distinct, connected⟩ :=
      grows.linked old new newCha oldFiled newFiled oldCha inCallgraph
    exact ⟨distinct, connected_of_callgraph connected⟩

end Growth

end Mcfi
