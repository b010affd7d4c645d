import Mcfi.CallGraphTargets

namespace Mcfi

open LinkMap

/-!
# The specification of the call graph

Which functions each kind of indirect branch is meant to reach.  Calls through
function and method pointers are linked with exactly these.  A virtual call is
linked through the first class of its inheritance group that has functions filed,
and a function without an entry in the class table is filed by the attribute byte
that the function before it left.
-/

section Filing

/-- The attribute byte that is left after some functions. -/
def attrsAfter (classes : ClassTable) (attrs : UInt8) (functions : List Function) : UInt8 :=
  functions.foldl (fun attrs f => (isInstanceMethod classes f attrs).2) attrs

/--
A function of the list is filed under a class and a method: by its own attributes, or,
if the class table has none for it, by those left before it.
-/
def FiledBy (classes : ClassTable) (aliasesTc : LinkMap Name Name) (attrs : UInt8)
    (functions : List Function) (className methodName name : Name) : Prop :=
  ∃ before f after, functions = before ++ f :: after ∧ f.className = some className ∧
    f.methodName = some methodName ∧
    isVirtual ((methodAttrs classes f).getD (attrsAfter classes attrs before)) = true ∧
    NameOrAlias aliasesTc f name

variable {classes : ClassTable} {fats : KeySet Name} {aliasesTc : LinkMap Name Name}
  {className methodName name : Name}

/-- The first function is filed, or a later one after it. -/
theorem filedBy_cons {attrs : UInt8} {f : Function} {rest : List Function} :
    FiledBy classes aliasesTc attrs (f :: rest) className methodName name ↔
      (f.className = some className ∧ f.methodName = some methodName ∧
        isVirtual ((methodAttrs classes f).getD attrs) = true ∧
        NameOrAlias aliasesTc f name) ∨
      FiledBy classes aliasesTc (isInstanceMethod classes f attrs).2 rest className methodName
        name := by
  constructor
  · rintro ⟨before, g, after, split, filed⟩
    cases before with
    | nil =>
        cases split
        exact Or.inl filed
    | cons first before =>
        cases split
        exact Or.inr ⟨before, g, after, rfl, filed⟩
  · rintro (filed | ⟨before, g, after, rfl, filed⟩)
    · exact ⟨[], f, rest, rfl, filed⟩
    · exact ⟨f :: before, g, after, rfl, filed⟩

/-- The virtual methods that `build_callgraph` files. -/
theorem linked_virtualFuncs_filedBy (functions : List Function) (attrs : UInt8) :
    Linked (functions.foldl (groupFunction classes fats aliasesTc)
        (FuncGroups.start attrs)).virtualFuncsByClsMtd (some className, some methodName) name ↔
      FiledBy classes aliasesTc attrs functions className methodName name := by
  have fold : ∀ groups : FuncGroups,
      Linked (functions.foldl (groupFunction classes fats aliasesTc)
          groups).virtualFuncsByClsMtd (some className, some methodName) name ↔
        FiledBy classes aliasesTc groups.attrs functions className methodName name ∨
          Linked groups.virtualFuncsByClsMtd (some className, some methodName) name := by
    induction functions with
    | nil =>
        intro groups
        simp [FiledBy]
    | cons f rest inductionHypothesis =>
        intro groups
        obtain ⟨virtuals, attrsLeft⟩ :=
          @virtualFuncs_groupFunction classes fats aliasesTc groups f
        rw [List.foldl_cons, inductionHypothesis, attrsLeft, virtuals, filedBy_cons]
        unfold gAddDirectedL2Edges NameOrAlias
        split
        next files =>
          simp only [linked_linkAll, List.mem_map, List.mem_cons, mem_targets, Prod.mk.injEq]
          grind
        next skips => grind
  rw [fold]
  simp [FuncGroups.start]

end Filing

section Specification

variable (attrs : UInt8) (info : Metainfo) (aliasesTc chacc : LinkMap Name Name)

namespace Metainfo

/-- All records of an indirect branch have one type. -/
def BranchIs (id : Name) (ity : IcfType) : Prop :=
  (∃ icf ∈ info.icfs, icf.id = id) ∧ ∀ icf ∈ info.icfs, icf.id = id → icf.ity = ity

/-- The address of a function is taken, under its name or an alias. -/
def AddrTaken (f : Function) : Prop :=
  ∃ name ∈ info.fats, name = f.name ∨ SameComponent info.aliases f.name name

/-- A call through a function pointer may reach the function. -/
def NormalTarget (type name : Name) : Prop :=
  ∃ f ∈ info.functions, f.type = some type ∧ name = f.name ∧ info.AddrTaken f ∧
    instanceAttrs info.classes f = none

/-- A call through a method pointer may reach the function. -/
def PointerTarget (type : Name) (qualifiers : UInt8) (name : Name) : Prop :=
  ∃ f ∈ info.functions, f.type = some type ∧ info.AddrTaken f ∧
    ∃ own, instanceAttrs info.classes f = some own ∧
      isConstant own = isConstant qualifiers ∧ isVolatile own = isVolatile qualifiers ∧
      (name = f.name ∨ isConstant qualifiers = false ∧ isVolatile qualifiers = false ∧
        SameComponent info.aliases f.name name)

/-- A function implements a virtual method in a class. -/
def ImplementsIn (className methodName : Name) (f : Function) : Prop :=
  f ∈ info.functions ∧ f.className = some className ∧ f.methodName = some methodName ∧
    virtualEntry info.classes className methodName = true

/-- A function implements a virtual method in a class connected with the given one. -/
def Overrides (className methodName : Name) (f : Function) : Prop :=
  ∃ other, Connected info.cha className other ∧ info.ImplementsIn other methodName f

end Metainfo

/-- The call graph links each indirect branch with what it may reach. -/
structure MatchesSpec (callgraph : LinkMap Nat Nat) : Prop where
  untyped : ∀ id, info.BranchIs id (.normalCall none) →
    ∀ key, ¬ Linked callgraph (markIcj id) key
  normal : ∀ id type, info.BranchIs id (.normalCall (some type)) → ∀ key,
    Linked callgraph (markIcj id) key ↔
      ∃ name, info.NormalTarget type name ∧ key = markFunc name
  pointer : ∀ id type qualifiers, info.BranchIs id (.pointerToMethodCall type qualifiers) →
    ∀ key, Linked callgraph (markIcj id) key ↔
      ∃ name, info.PointerTarget type qualifiers name ∧ key = markFunc name
  virtual : ∀ id className methodName,
    info.BranchIs id (.virtualMethodCall className methodName) →
      ∀ f, info.Overrides className methodName f →
        SameComponent callgraph (markIcj id) (markFunc f.name)

/-- The functions that the call graph files under a class and a method. -/
def Metainfo.Files (className methodName name : Name) : Prop :=
  FiledBy info.classes aliasesTc attrs info.functions className methodName name

/-- The class at which the lookup of a virtual call stops. -/
def LookupStopsAt (className methodName found : Name) : Prop :=
  ∃ before after, className :: chacc.targets className = before ++ found :: after ∧
    (∃ name, info.Files attrs aliasesTc found methodName name) ∧
    ∀ other ∈ before, ∀ name, ¬ info.Files attrs aliasesTc other methodName name

/-- What a record of an indirect branch links it with. -/
def Reaches (icf : Icf) (name : Name) : Prop :=
  match icf.ity with
  | .virtualMethodCall className methodName =>
      ∃ found, LookupStopsAt attrs info aliasesTc chacc className methodName found ∧
        info.Files attrs aliasesTc found methodName name
  | .pointerToMethodCall type qualifiers => info.PointerTarget type qualifiers name
  | .normalCall none => False
  | .normalCall (some type) => info.NormalTarget type name

/--
Two names belong to functions that implement one virtual method in an inheritance
group, or one indirect branch reaches both.
-/
def JoinStep (one other : Name) : Prop :=
  (∃ left right methodName f g, SameComponent info.cha left right ∧
    info.ImplementsIn left methodName f ∧ NameOrAlias aliasesTc f one ∧
    info.ImplementsIn right methodName g ∧ NameOrAlias aliasesTc g other) ∨
  ∃ icf ∈ info.icfs, ∃ again ∈ info.icfs, icf.id = again.id ∧
    Reaches attrs info aliasesTc chacc icf one ∧
    Reaches attrs info aliasesTc chacc again other

/-- A chain of such steps leads from one name to the other. -/
def Joined : Name → Name → Prop :=
  Relation.ReflTransGen (JoinStep attrs info aliasesTc chacc)

/--
A virtual call with an implementation in its group is looked up at a class that has
the method as a virtual one, or finds a function that is joined with an
implementation in another way.
-/
def LookupsMeet : Prop :=
  ∀ id className methodName found,
    info.BranchIs id (.virtualMethodCall className methodName) →
    (∃ f, info.Overrides className methodName f) →
    LookupStopsAt attrs info aliasesTc chacc className methodName found →
      virtualEntry info.classes found methodName = true ∨
        ∃ name f, info.Files attrs aliasesTc found methodName name ∧
          info.Overrides className methodName f ∧
          Joined attrs info aliasesTc chacc name f.name

end Specification

section Reaching

variable {attrs : UInt8} {info : Metainfo} {callgraph : LinkMap Nat Nat}
  {allFuncs : LinkMap Name Function}
  (parts : CallgraphParts attrs info callgraph allFuncs)

namespace CallgraphParts
include parts

/-- The filed functions are those of the tables. -/
theorem files_iff {className methodName name : Name} :
    Linked parts.groups.virtualFuncsByClsMtd (some className, some methodName) name ↔
      info.Files attrs parts.aliasesTc className methodName name := by
  rw [parts.groupsAre, linked_virtualFuncs_filedBy, Metainfo.Files]

/-- The lookup of a virtual call stops at the first class that has functions filed. -/
theorem lookupStopsAt_iff {className methodName found : Name} :
    firstFiled parts.groups parts.chacc className methodName = some found ↔
      LookupStopsAt attrs info parts.aliasesTc parts.chacc className methodName found := by
  rw [firstFiled, List.find?_eq_some_iff_append]
  simp only [decide_eq_true_eq, Bool.not_eq_true', decide_eq_false_iff_not,
    parts.mem_virtuals_iff, parts.files_iff, not_exists]
  constructor
  · rintro ⟨files, before, after, split, earlier⟩
    exact ⟨before, after, split, files, earlier⟩
  · rintro ⟨before, after, split, files, earlier⟩
    exact ⟨files, before, after, split, earlier⟩

/-- The address of a function is taken in the one sense and in the other. -/
theorem taken_iff {f : Function} :
    funcOrAliasAddrTaken info.fats f.name parts.aliasesTc = true ↔ info.AddrTaken f := by
  simp only [parts.addrTaken_iff, parts.nameOrAlias_iff, Metainfo.AddrTaken]

/-- The targets of a record are what it reaches. -/
theorem reaches_iff {icf : Icf} {name : Name} :
    name ∈ icfTargets parts.groups parts.chacc icf ↔
      Reaches attrs info parts.aliasesTc parts.chacc icf name := by
  unfold Reaches
  cases isType : icf.ity with
  | virtualMethodCall className methodName =>
      simp only [mem_virtualTargets isType, parts.lookupStopsAt_iff, parts.files_iff]
  | pointerToMethodCall type qualifiers =>
      simp only [parts.pointer_target_iff isType, parts.taken_iff, parts.nameOrAlias_iff,
        Metainfo.PointerTarget]
      grind
  | normalCall type =>
      cases type with
      | none => simp [icfTargets, isType]
      | some type =>
          simp only [parts.normal_target_iff isType, parts.taken_iff, Metainfo.NormalTarget]

/-- A record is connected with what it reaches. -/
theorem connected_of_reaches {icf : Icf} (listed : icf ∈ info.icfs) {name : Name}
    (reaches : Reaches attrs info parts.aliasesTc parts.chacc icf name) :
    Connected callgraph (markIcj icf.id) (markFunc name) :=
  parts.connected_of_target listed (parts.reaches_iff.mpr reaches)

/-- The methods that two functions implement in one group are related. -/
theorem related_iff {left right : Nat} :
    ChaRelated info.classes parts.groups.virtualFuncsByClsMtd info.cha left right ↔
      ∃ one other, left = markFunc one ∧ right = markFunc other ∧
        ∃ leftClass rightClass methodName f g, SameComponent info.cha leftClass rightClass ∧
          info.ImplementsIn leftClass methodName f ∧ NameOrAlias parts.aliasesTc f one ∧
          info.ImplementsIn rightClass methodName g ∧
          NameOrAlias parts.aliasesTc g other := by
  simp only [ChaRelated, parts.implements_iff, Metainfo.ImplementsIn]
  constructor
  · rintro ⟨leftClass, rightClass, methodName, same,
      ⟨leftEntry, f, fListed, fClass, fMethod, one, fFiled, rfl⟩,
      ⟨rightEntry, g, gListed, gClass, gMethod, other, gFiled, rfl⟩⟩
    exact ⟨one, other, rfl, rfl, leftClass, rightClass, methodName, f, g, same,
      ⟨fListed, fClass, fMethod, leftEntry⟩, fFiled, ⟨gListed, gClass, gMethod, rightEntry⟩,
      gFiled⟩
  · rintro ⟨one, other, rfl, rfl, leftClass, rightClass, methodName, f, g, same,
      ⟨fListed, fClass, fMethod, leftEntry⟩, fFiled, ⟨gListed, gClass, gMethod, rightEntry⟩,
      gFiled⟩
    exact ⟨leftClass, rightClass, methodName, same,
      ⟨leftEntry, f, fListed, fClass, fMethod, one, fFiled, rfl⟩,
      ⟨rightEntry, g, gListed, gClass, gMethod, other, gFiled, rfl⟩⟩

/-- Joined names are connected in the call graph. -/
theorem connected_of_joined (chaUndirected : Undirected info.cha) {one other : Name}
    (joined : Joined attrs info parts.aliasesTc parts.chacc one other) :
    Connected callgraph (markFunc one) (markFunc other) := by
  have undirected := parts.undirected chaUndirected
  induction joined with
  | refl => exact Relation.ReflTransGen.refl
  | @tail middle last _ step inductionHypothesis =>
      refine inductionHypothesis.trans ?_
      rcases step with related | ⟨icf, listed, again, listedAgain, sameId, first, second⟩
      · exact parts.connected_of_related chaUndirected
          (parts.related_iff.mpr ⟨middle, last, rfl, rfl, related⟩)
      · have back := undirected.connected_symm (parts.connected_of_reaches listed first)
        rw [sameId] at back
        exact back.trans (parts.connected_of_reaches listedAgain second)

/-- A function connected with a branch is joined with one that the branch reaches. -/
theorem joined_of_connected (chaUndirected : Undirected info.cha) {id : Name} {vertex : Nat}
    (connected : Connected callgraph (markIcj id) vertex) :
    (∃ again, vertex = markIcj again) ∨
      ∃ name icf target, vertex = markFunc name ∧ icf ∈ info.icfs ∧ icf.id = id ∧
        Reaches attrs info parts.aliasesTc parts.chacc icf target ∧
        Joined attrs info parts.aliasesTc parts.chacc target name := by
  -- the other branches on the path reach joined names
  let Inside := fun vertex : Nat => vertex = markIcj id ∨
    ∃ icf target, icf ∈ info.icfs ∧ icf.id = id ∧
      Reaches attrs info parts.aliasesTc parts.chacc icf target ∧
      ∃ name, Joined attrs info parts.aliasesTc parts.chacc target name ∧
        (vertex = markFunc name ∨ ∃ again ∈ info.icfs, vertex = markIcj again.id ∧
          Reaches attrs info parts.aliasesTc parts.chacc again name)
  have closed : ∀ first second, Inside first → Linked callgraph first second →
      Inside second := by
    rintro first second inside linked
    rcases inside with rfl | ⟨icf, target, listed, isId, reaches, name, joined, rfl |
      ⟨again, againListed, rfl, againReaches⟩⟩
    · obtain ⟨icf, listed, isId, name, target, rfl⟩ :=
        (parts.linked_branch_iff chaUndirected).mp linked
      exact Or.inr ⟨icf, name, listed, isId, parts.reaches_iff.mp target, name,
        Relation.ReflTransGen.refl, Or.inl rfl⟩
    · refine Or.inr ⟨icf, target, listed, isId, reaches, ?_⟩
      rcases parts.linked_iff chaUndirected linked with
        ⟨other, otherListed, next, isTarget, ⟨isBranch, _⟩ | ⟨isName, rfl⟩⟩ | ⟨_, related⟩
      · exact absurd isBranch (markFunc_ne_markIcj name other.id)
      · obtain rfl := markFunc_inj.mp isName
        exact ⟨name, joined, Or.inr ⟨other, otherListed, rfl, parts.reaches_iff.mp isTarget⟩⟩
      · obtain ⟨one, next, isName, rfl, step⟩ := parts.related_iff.mp related
        obtain rfl := markFunc_inj.mp isName
        exact ⟨next, joined.tail (Or.inl step), Or.inl rfl⟩
    · obtain ⟨other, otherListed, sameId, next, isTarget, rfl⟩ :=
        (parts.linked_branch_iff chaUndirected).mp linked
      exact Or.inr ⟨icf, target, listed, isId, reaches, next,
        joined.tail (Or.inr ⟨again, againListed, other, otherListed, sameId.symm, againReaches,
          parts.reaches_iff.mp isTarget⟩), Or.inl rfl⟩
  rcases Connected.mem_of_closed closed (Or.inl rfl) connected with rfl |
    ⟨icf, target, listed, isId, reaches, name, joined, rfl | ⟨again, _, rfl, _⟩⟩
  · exact Or.inl ⟨id, rfl⟩
  · exact Or.inr ⟨name, icf, target, rfl, listed, isId, reaches, joined⟩
  · exact Or.inl ⟨again.id, rfl⟩

/-- What implements a method is filed under it. -/
theorem files_of_implementsIn {className methodName : Name} {f : Function}
    (implements : info.ImplementsIn className methodName f) :
    info.Files attrs parts.aliasesTc className methodName f.name := by
  obtain ⟨listed, ofClass, ofMethod, isEntry⟩ := implements
  rw [← parts.files_iff, parts.groupsAre, linked_virtualFuncs_of_entry isEntry]
  exact ⟨f, listed, ofClass, ofMethod, Or.inl rfl⟩

/-- What is filed under a virtual method implements it. -/
theorem implementsIn_of_files {className methodName name : Name}
    (isEntry : virtualEntry info.classes className methodName = true)
    (files : info.Files attrs parts.aliasesTc className methodName name) :
    ∃ f, info.ImplementsIn className methodName f := by
  rw [← parts.files_iff, parts.groupsAre, linked_virtualFuncs_of_entry isEntry] at files
  obtain ⟨f, listed, ofClass, ofMethod, _⟩ := files
  exact ⟨f, listed, ofClass, ofMethod, isEntry⟩

/-- The classes that a virtual call looks at are those connected with its own. -/
theorem looked_iff {className other : Name} :
    other ∈ className :: parts.chacc.targets className ↔
      Connected info.cha className other := by
  rw [List.mem_cons, mem_targets, parts.linkedChacc]
  constructor
  · rintro (rfl | same)
    · exact Relation.ReflTransGen.refl
    · exact same.2
  · intro connected
    by_cases isOwn : other = className
    · exact Or.inl isOwn
    · exact Or.inr ⟨mem_of_connected_of_ne connected (Ne.symm isOwn), connected⟩

/-- A lookup stops at a class that is connected with the class of the call. -/
theorem connected_of_lookup {className methodName found : Name}
    (stops : LookupStopsAt attrs info parts.aliasesTc parts.chacc className methodName found) :
    Connected info.cha className found := by
  obtain ⟨before, after, split, _⟩ := stops
  rw [← parts.looked_iff, split]
  simp

/-- The lookup of a call stops somewhere if its group implements the method. -/
theorem exists_lookup {className methodName : Name} {f : Function}
    (overrides : info.Overrides className methodName f) :
    ∃ found,
      LookupStopsAt attrs info parts.aliasesTc parts.chacc className methodName found := by
  obtain ⟨other, connected, implements⟩ := overrides
  have filed := parts.mem_virtuals_iff.mpr
    ⟨f.name, parts.files_iff.mpr (parts.files_of_implementsIn implements)⟩
  have isSome : (firstFiled parts.groups parts.chacc className methodName).isSome := by
    rw [firstFiled, List.find?_isSome]
    exact ⟨other, parts.looked_iff.mpr connected, by simpa using filed⟩
  obtain ⟨found, isFound⟩ := Option.isSome_iff_exists.mp isSome
  exact ⟨found, parts.lookupStopsAt_iff.mp isFound⟩

/-- All implementations in the group of a virtual call are joined. -/
theorem joined_overrides (chaUndirected : Undirected info.cha) {icf : Icf}
    {className methodName : Name} (listed : icf ∈ info.icfs)
    (isVirtual : icf.ity = .virtualMethodCall className methodName) {f g : Function}
    (first : info.Overrides className methodName f)
    (second : info.Overrides className methodName g) :
    Joined attrs info parts.aliasesTc parts.chacc f.name g.name := by
  obtain ⟨left, leftConnected, fImplements⟩ := first
  obtain ⟨right, rightConnected, gImplements⟩ := second
  by_cases vertex : className ∈ info.cha
  · have same : SameComponent info.cha left right :=
      ⟨chaUndirected.mem_of_connected vertex leftConnected,
        (chaUndirected.connected_symm leftConnected).trans rightConnected⟩
    exact Relation.ReflTransGen.single (Or.inl ⟨left, right, methodName, f, g, same,
      fImplements, Or.inl rfl, gImplements, Or.inl rfl⟩)
  · -- a class without relatives, where the lookup stops at once
    have isOwn : ∀ other, Connected info.cha className other → other = className := by
      intro other connected
      by_contra differ
      exact vertex (mem_of_connected_of_ne connected (Ne.symm differ))
    obtain rfl := isOwn left leftConnected
    obtain rfl := isOwn right rightConnected
    have stops : LookupStopsAt attrs info parts.aliasesTc parts.chacc right methodName right :=
      ⟨[], _, rfl, ⟨f.name, parts.files_of_implementsIn fImplements⟩,
        fun _ never => nomatch never⟩
    have reaches : ∀ h, info.ImplementsIn right methodName h →
        Reaches attrs info parts.aliasesTc parts.chacc icf h.name := by
      intro h implements
      rw [Reaches, isVirtual]
      exact ⟨right, stops, parts.files_of_implementsIn implements⟩
    exact Relation.ReflTransGen.single (Or.inr ⟨icf, listed, icf, listed, rfl,
      reaches f fImplements, reaches g gImplements⟩)

/-- The branches of virtual calls are connected with what they are meant to reach. -/
theorem virtual_iff (chaUndirected : Undirected info.cha) :
    (∀ id className methodName, info.BranchIs id (.virtualMethodCall className methodName) →
      ∀ f, info.Overrides className methodName f →
        SameComponent callgraph (markIcj id) (markFunc f.name)) ↔
      LookupsMeet attrs info parts.aliasesTc parts.chacc := by
  constructor
  · rintro component id className methodName found isVirtual ⟨f, overrides⟩ stops
    have same := component id className methodName isVirtual f overrides
    rcases parts.joined_of_connected chaUndirected same.2 with ⟨again, isBranch⟩ |
      ⟨name, icf, target, isName, listed, isId, reaches, joined⟩
    · exact absurd isBranch (markFunc_ne_markIcj f.name again)
    · obtain rfl := markFunc_inj.mp isName
      rw [Reaches, isVirtual.2 icf listed isId] at reaches
      obtain ⟨other, otherStops, files⟩ := reaches
      have sameClass : some other = some found :=
        (parts.lookupStopsAt_iff.mpr otherStops).symm.trans
          (parts.lookupStopsAt_iff.mpr stops)
      cases sameClass
      exact Or.inr ⟨target, f, files, overrides, joined⟩
  · intro meet id className methodName isVirtual f overrides
    obtain ⟨⟨icf, listed, rfl⟩, types⟩ := isVirtual
    have isType := types icf listed rfl
    obtain ⟨found, stops⟩ := parts.exists_lookup overrides
    -- a function that the call reaches and that is joined with an implementation
    obtain ⟨name, g, files, gOverrides, joined⟩ :
        ∃ name g, info.Files attrs parts.aliasesTc found methodName name ∧
          info.Overrides className methodName g ∧
          Joined attrs info parts.aliasesTc parts.chacc name g.name := by
      rcases meet icf.id className methodName found ⟨⟨icf, listed, rfl⟩, types⟩
        ⟨f, overrides⟩ stops with isEntry | meets
      · have connected := parts.connected_of_lookup stops
        obtain ⟨_, _, _, ⟨name, files⟩, _⟩ := stops
        obtain ⟨g, implements⟩ := parts.implementsIn_of_files isEntry files
        exact ⟨g.name, g, parts.files_of_implementsIn implements,
          ⟨found, connected, implements⟩, Relation.ReflTransGen.refl⟩
      · exact meets
    have reaches : Reaches attrs info parts.aliasesTc parts.chacc icf name := by
      rw [Reaches, isType]
      exact ⟨found, stops, files⟩
    have path := joined.trans
      (parts.joined_overrides chaUndirected listed isType gOverrides overrides)
    have connected := (parts.connected_of_reaches listed reaches).trans
      (parts.connected_of_joined chaUndirected path)
    exact ⟨mem_of_connected_of_ne connected (markFunc_ne_markIcj f.name icf.id).symm,
      connected⟩

end CallgraphParts

end Reaching

section Matching

variable {attrs : UInt8} {info : Metainfo} {aliasesTc chacc : LinkMap Name Name}

/-- The neighbours of a branch whose records have one type. -/
theorem CallgraphParts.linked_branchIs {callgraph : LinkMap Nat Nat}
    {allFuncs : LinkMap Name Function} (parts : CallgraphParts attrs info callgraph allFuncs)
    (chaUndirected : Undirected info.cha) {id : Name} {ity : IcfType}
    (isType : info.BranchIs id ity) {key : Nat} :
    Linked callgraph (markIcj id) key ↔
      ∃ name, Reaches attrs info parts.aliasesTc parts.chacc ⟨id, ity⟩ name ∧
        key = markFunc name := by
  rw [parts.linked_branch_iff chaUndirected]
  obtain ⟨⟨own, ownListed, ownId⟩, types⟩ := isType
  constructor
  · rintro ⟨icf, listed, rfl, name, target, rfl⟩
    have reaches := parts.reaches_iff.mp target
    rw [Reaches, types icf listed rfl] at reaches
    exact ⟨name, reaches, rfl⟩
  · rintro ⟨name, reaches, rfl⟩
    refine ⟨own, ownListed, ownId, name, parts.reaches_iff.mpr ?_, rfl⟩
    rw [Reaches, types own ownListed ownId]
    exact reaches

/--
`build_callgraph` returns a graph that matches its specification exactly when no
function implements a virtual method in two classes of a group and the lookups of
virtual calls meet the implementations.
-/
theorem matchesSpec_iff (aliasesUndirected : Undirected info.aliases)
    (chaUndirected : Undirected info.cha)
    (aliasesRun : gTransitiveClosure info.aliases = .ok aliasesTc)
    (chaccRun : gTransitiveClosure info.cha = .ok chacc) :
    (∃ callgraph allFuncs, buildCallgraph attrs info = .ok (callgraph, allFuncs) ∧
        MatchesSpec info callgraph) ↔
      SeparateImplementations info ∧ LookupsMeet attrs info aliasesTc chacc := by
  rw [← buildCallgraph_returns attrs aliasesUndirected chaUndirected]
  have parts : ∀ {callgraph allFuncs},
      buildCallgraph attrs info = .ok (callgraph, allFuncs) →
        (MatchesSpec info callgraph ↔ LookupsMeet attrs info aliasesTc chacc) := by
    intro callgraph allFuncs runs
    obtain ⟨parts, rfl, rfl⟩ := exists_callgraphParts aliasesUndirected chaUndirected
      aliasesRun chaccRun runs
    rw [← parts.virtual_iff chaUndirected]
    refine ⟨fun isSpec => isSpec.virtual, fun virtual => ⟨?_, ?_, ?_, virtual⟩⟩
    · intro id isType key linked
      obtain ⟨name, never, _⟩ := (parts.linked_branchIs chaUndirected isType).mp linked
      exact never
    · exact fun id type isType key => parts.linked_branchIs chaUndirected isType
    · exact fun id type qualifiers isType key => parts.linked_branchIs chaUndirected isType
  constructor
  · rintro ⟨callgraph, allFuncs, runs, isSpec⟩
    exact ⟨⟨_, runs⟩, (parts runs).mp isSpec⟩
  · rintro ⟨⟨⟨callgraph, allFuncs⟩, runs⟩, meet⟩
    exact ⟨callgraph, allFuncs, runs, (parts runs).mpr meet⟩

end Matching

section Examples

open AliasExample

/-- A virtual call of a destructor on the derived class. -/
def destructorCall : Icf where
  id := Name.ofPtr 96
  ity := .virtualMethodCall derivedClass destructor

/-- Two classes with destructors, and such a call. -/
def callInfo (classes : ClassTable) : Metainfo where
  icfs := [destructorCall]
  functions := [destructorOf baseDestructor baseClass,
    destructorOf derivedDestructor derivedClass]
  classes := classes
  cha := gAddEdge ∅ derivedClass baseClass
  fats := ∅
  fatsInData := ∅
  fatsInCode := ∅
  aliases := ∅
  definedCtors := ∅

/-- A class table without the derived class. -/
def baseTables : ClassTable :=
  (∅ : ClassTable).insertNew baseClass
    ((∅ : OrdDict Name UInt8).insertNew destructor Qualifier.virtual.bit)

/--
The derived destructor is filed by the attributes of the one before it, and the call
never gets to that one.
-/
theorem stale_attrs_divert :
    ¬ ∀ (attrs : UInt8) (info : Metainfo),
      Undirected info.aliases → Undirected info.cha →
        ∃ callgraph allFuncs, buildCallgraph attrs info = .ok (callgraph, allFuncs) ∧
          MatchesSpec info callgraph := by
  intro all
  obtain ⟨callgraph, allFuncs, runs, isSpec⟩ :=
    all 0 (callInfo baseTables) undirected_empty (undirected_empty.join _ _)
  have neighbours : (buildCallgraph 0 (callInfo baseTables)).toOption.any fun result =>
      result.1.targets (markIcj (Name.ofPtr 96)) == [markFunc derivedDestructor] &&
        result.1.targets (markFunc derivedDestructor) == [markIcj (Name.ofPtr 96)] := by
    decide +kernel
  rw [runs] at neighbours
  simp only [Except.toOption, Option.any_some, Bool.and_eq_true, beq_iff_eq] at neighbours
  have implements : (callInfo baseTables).Overrides derivedClass destructor
      (destructorOf baseDestructor baseClass) := by
    refine ⟨baseClass, connected_of_linked ?_, List.mem_cons_self, rfl, rfl, by decide⟩
    decide
  have same := isSpec.virtual (Name.ofPtr 96) derivedClass destructor
    ⟨⟨destructorCall, List.mem_cons_self, rfl⟩, fun icf listed _ => by
      rw [List.mem_singleton.mp listed]
      rfl⟩ _ implements
  have closed : ∀ first second,
      (first = markIcj (Name.ofPtr 96) ∨ first = markFunc derivedDestructor) →
        Linked callgraph first second →
          second = markIcj (Name.ofPtr 96) ∨ second = markFunc derivedDestructor := by
    rintro first second (rfl | rfl) linked
    · rw [← mem_targets, neighbours.1, List.mem_singleton] at linked
      exact Or.inr linked
    · rw [← mem_targets, neighbours.2, List.mem_singleton] at linked
      exact Or.inl linked
  rcases Connected.mem_of_closed closed (Or.inl rfl) same.2 with isBranch | isOther
  · exact absurd isBranch (by decide)
  · exact absurd isOther (by decide)

/-- With an entry for each destructor the call meets both. -/
theorem matchesSpec_iff_destructors :
    ∃ callgraph allFuncs,
      buildCallgraph 0 (callInfo classTables) = .ok (callgraph, allFuncs) ∧
        MatchesSpec (callInfo classTables) callgraph := by
  obtain ⟨aliasesTc, aliasesRun, linkedAliases⟩ :=
    gTransitiveClosure_ok (undirected_empty : Undirected (∅ : LinkMap Name Name))
  have chaUndirected : Undirected (gAddEdge ∅ derivedClass baseClass) :=
    undirected_empty.join _ _
  obtain ⟨chacc, chaccRun, linkedChacc⟩ := gTransitiveClosure_ok chaUndirected
  refine (matchesSpec_iff undirected_empty chaUndirected aliasesRun chaccRun).mpr
    ⟨?_, ?_⟩
  · have apart : ∀ f ∈ (callInfo classTables).functions,
        ∀ g ∈ (callInfo classTables).functions, f.name = g.name → f = g := by
      decide
    intro f fListed g gListed left right methodName fClass gClass _ _ _ _ _ same
    rcases same with sameName | ⟨never, _⟩
    · rw [apart f fListed g gListed sameName, gClass] at fClass
      exact (Option.some.inj fClass).symm
    · exact absurd never (by simp [callInfo])
  · rintro id className methodName found ⟨⟨icf, listed, rfl⟩, types⟩ _
      ⟨before, after, split, _⟩
    obtain rfl := List.mem_singleton.mp listed
    cases types destructorCall List.mem_cons_self rfl
    have looked : found ∈ derivedClass :: chacc.targets derivedClass := by
      rw [split]
      simp
    have relatives : ∀ other ∈ gAddEdge ∅ derivedClass baseClass,
        virtualEntry classTables other destructor = true := by
      decide
    refine Or.inl (relatives found ?_)
    rcases List.mem_cons.mp looked with rfl | isTarget
    · decide
    · have same := (linkedChacc _ _).mp (mem_targets.mp isTarget)
      exact chaUndirected.mem_of_connected same.1 same.2

end Examples

end Mcfi
