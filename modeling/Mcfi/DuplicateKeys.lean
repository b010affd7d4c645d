import Mathlib.Data.List.Nodup
import Mathlib.Data.List.Pairwise
import Mcfi.Generation

namespace Mcfi

open LinkMap

/-!
# When the CFG is computed

`_build_cha_relations` collects the functions that implement a virtual method in
the classes of an inheritance group, and `dict_add` checks that it meets each of
them once.  A function that is an alias of one of another class is met twice.
Every other call of `dict_add` and of `g_bfs` has new keys, so the CFG is computed
exactly when no method is collected twice.
-/

section Collecting

variable {classes : ClassTable}
  {virtuals : LinkMap (Option Name × Option Name) Name}
  {cha : LinkMap Name Name}

/-- No function implements the method in two classes of a class's group. -/
def SeparateIn (classes : ClassTable)
    (virtuals : LinkMap (Option Name × Option Name) Name)
    (cha : LinkMap Name Name) (className methodName : Name) : Prop :=
  ∀ left right, SameComponent cha className left →
    SameComponent cha className right → left ≠ right →
      ∀ key, Implements classes virtuals left methodName key →
        ¬ Implements classes virtuals right methodName key

theorem SeparateIn.of_same
    {className other methodName : Name} (same : SameComponent cha className other)
    (separate : SeparateIn classes virtuals cha className methodName) :
    SeparateIn classes virtuals cha other methodName :=
  fun left right leftSame rightSame =>
    separate left right (same.trans leftSame) (same.trans rightSame)

/-- Collecting the functions of one class returns exactly when they are new. -/
theorem chaCollect_returns {methodName className : Name}
    {state : LinkMap Name Name × KeySet Nat}
    (fresh : ¬ Linked state.1 className methodName) :
    (∃ next, chaCollect classes virtuals methodName state className = .ok next) ↔
      ∀ key, Implements classes virtuals className methodName key →
        key ∉ state.2 := by
  rw [chaCollect, gDirectedEdgeIn, decide_eq_false fresh, Bool.not_false,
    Bool.and_true]
  by_cases isEntry : virtualEntry classes className methodName = true
  · rw [if_pos isEntry]
    cases located : gFindL2Vertex virtuals (some className) (some methodName) with
    | none =>
        refine ⟨fun _ key ⟨_, name, ⟨names, found, _⟩, _⟩ => ?_, fun _ => ⟨_, rfl⟩⟩
        rw [gFindL2Vertex, dictFind, found] at located
        cases located
    | some names =>
        have implements : ∀ key,
            Implements classes virtuals className methodName key ↔
              key ∈ names.keys.map markFunc := by
          intro key
          rw [List.mem_map]
          constructor
          · rintro ⟨_, name, ⟨others, found, inside⟩, rfl⟩
            rw [gFindL2Vertex, dictFind, found] at located
            cases located
            exact ⟨name, OrdDict.mem_keys.mpr inside, rfl⟩
          · rintro ⟨name, listed, rfl⟩
            exact ⟨isEntry, name, ⟨names, located, OrdDict.mem_keys.mp listed⟩, rfl⟩
        have nodup : (names.keys.map markFunc).Nodup :=
          names.keys_nodup.map fun _ _ same => markFunc_inj.mp same
        have collected : names.keys.foldlM
            (fun eqc name => dictAdd eqc (markFunc name) ()) state.2 =
              (names.keys.map markFunc).foldlM
                (fun eqc key => dictAdd eqc key ()) state.2 := by
          rw [← List.foldlM_map (f := markFunc)
            (g := fun eqc key => dictAdd eqc key ())]
        constructor
        · rintro ⟨next, runs⟩ key isImplemented
          obtain ⟨eqc, added, _⟩ := bind_eq_ok.mp runs
          rw [collected] at added
          exact (foldlM_dictAdd_eq_ok added).2.1 key ((implements key).mp isImplemented)
        · intro allNew
          obtain ⟨eqc, added⟩ := foldlM_dictAdd_ok () nodup
            fun key listed => allNew key ((implements key).mpr listed)
          exact ⟨_, bind_eq_ok.mpr ⟨eqc, collected.trans added, rfl⟩⟩
  · rw [if_neg isEntry]
    exact ⟨fun _ key implemented => absurd implemented.1 isEntry, fun _ => ⟨state, rfl⟩⟩

/-- What is collected in one class. -/
private theorem chaCollect_spec {methodName className : Name}
    {state next : LinkMap Name Name × KeySet Nat}
    (fresh : ¬ Linked state.1 className methodName)
    (runs : chaCollect classes virtuals methodName state className = .ok next) :
    (∀ other, other ≠ className →
      (Linked next.1 other methodName ↔ Linked state.1 other methodName)) ∧
    (∀ key, key ∈ next.2 ↔ key ∈ state.2 ∨
      Implements classes virtuals className methodName key) := by
  have single : [className].foldlM (chaCollect classes virtuals methodName) state =
      .ok next := by
    rw [List.foldlM_cons, runs]
    rfl
  obtain ⟨explored, collected⟩ :=
    foldlM_chaCollect [className] (List.nodup_singleton _) state next single
  refine ⟨fun other distinct => ?_, fun key => ?_⟩
  · rw [explored, List.mem_singleton]
    simp [distinct]
  · rw [collected]
    simp [fresh]

/--
Collecting the functions of a group that is not explored yet returns exactly when
no function implements the method in two of its classes.
-/
theorem foldlM_chaCollect_returns {methodName : Name} (group : List Name)
    (nodup : group.Nodup) (state : LinkMap Name Name × KeySet Nat)
    (fresh : ∀ className ∈ group, ¬ Linked state.1 className methodName) :
    (∃ final, group.foldlM (chaCollect classes virtuals methodName) state =
        .ok final) ↔
      (∀ className ∈ group, ∀ key,
        Implements classes virtuals className methodName key → key ∉ state.2) ∧
      group.Pairwise fun left right => ∀ key,
        Implements classes virtuals left methodName key →
          ¬ Implements classes virtuals right methodName key := by
  induction group generalizing state with
  | nil =>
      exact ⟨fun _ => ⟨(fun _ never => nomatch never), .nil⟩, fun _ => ⟨state, rfl⟩⟩
  | cons head rest inductionHypothesis =>
      obtain ⟨notListed, restNodup⟩ := List.nodup_cons.mp nodup
      have headFresh := fresh head List.mem_cons_self
      rw [List.forall_mem_cons, List.pairwise_cons]
      have restReturns : ∀ middle,
          chaCollect classes virtuals methodName state head = .ok middle →
          ((∃ final, rest.foldlM (chaCollect classes virtuals methodName) middle =
              .ok final) ↔
            (∀ className ∈ rest, ∀ key,
              Implements classes virtuals className methodName key →
                key ∉ state.2 ∧
                  ¬ Implements classes virtuals head methodName key) ∧
            rest.Pairwise fun left right => ∀ key,
              Implements classes virtuals left methodName key →
                ¬ Implements classes virtuals right methodName key) := by
        intro middle first
        obtain ⟨explored, collected⟩ := chaCollect_spec headFresh first
        rw [inductionHypothesis restNodup middle fun className inRest => by
          rw [explored className fun same => notListed (same ▸ inRest)]
          exact fresh className (List.mem_cons_of_mem _ inRest)]
        simp only [collected, not_or]
      constructor
      · rintro ⟨final, runs⟩
        rw [List.foldlM_cons] at runs
        obtain ⟨middle, first, later⟩ := bind_eq_ok.mp runs
        obtain ⟨apart, pairwise⟩ := (restReturns middle first).mp ⟨final, later⟩
        exact ⟨⟨(chaCollect_returns headFresh).mp ⟨middle, first⟩,
            fun className inRest key implements =>
              (apart className inRest key implements).1⟩,
          fun className inRest key headImplements implements =>
            (apart className inRest key implements).2 headImplements, pairwise⟩
      · rintro ⟨⟨headNew, restNew⟩, headApart, pairwise⟩
        obtain ⟨middle, first⟩ := (chaCollect_returns headFresh).mpr headNew
        obtain ⟨final, later⟩ := (restReturns middle first).mpr
          ⟨fun className inRest key implements =>
            ⟨restNew className inRest key implements, fun headImplements =>
              headApart className inRest key headImplements implements⟩, pairwise⟩
        refine ⟨final, ?_⟩
        rw [List.foldlM_cons]
        exact bind_eq_ok.mpr ⟨middle, first, later⟩

end Collecting

section Visiting

variable {classes : ClassTable}
  {virtuals : LinkMap (Option Name × Option Name) Name}
  {cha : LinkMap Name Name} (chaUndirected : Undirected cha)
  {start : LinkMap Nat Nat} {components : List (KeySet Name)}
  (isComponents : IsComponents cha components)
  {group : KeySet Name} (listed : group ∈ components)

/-- What holds between two rounds that returned. -/
structure VisitInvariant (classes : ClassTable)
    (virtuals : LinkMap (Option Name × Option Name) Name)
    (cha : LinkMap Name Name) (start : LinkMap Nat Nat) (state : ChaState) :
    Prop where
  related : ChaInvariant classes virtuals cha start state
  separate : ∀ className methodName,
    Linked state.explored className methodName →
      SeparateIn classes virtuals cha className methodName

include chaUndirected isComponents listed

/-- The functions of a group are separate when those of its list of classes are. -/
private theorem separateIn_iff_pairwise {className methodName : Name}
    (inGroup : className ∈ group) :
    SeparateIn classes virtuals cha className methodName ↔
      group.keys.Pairwise fun left right => ∀ key,
        Implements classes virtuals left methodName key →
          ¬ Implements classes virtuals right methodName key := by
  have sameGroup : ∀ other, other ∈ group.keys ↔ SameComponent cha className other :=
    fun other => OrdDict.mem_keys.trans (isComponents.mem_iff chaUndirected listed inGroup)
  constructor
  · intro separate
    refine group.keys_nodup.pairwise_of_forall_ne fun left leftIn right rightIn => ?_
    exact separate left right ((sameGroup left).mp leftIn) ((sameGroup right).mp rightIn)
  · intro pairwise left right leftSame rightSame distinct
    have symmetric : Std.Symm fun left right => ∀ key,
        Implements classes virtuals left methodName key →
          ¬ Implements classes virtuals right methodName key :=
      ⟨fun _ _ apart key inRight inLeft => apart key inLeft inRight⟩
    exact pairwise.forall ((sameGroup left).mpr leftSame)
      ((sameGroup right).mpr rightSame) distinct

/-- A round over a method that was not explored. -/
private theorem groupUnexplored {state : ChaState} {className methodName : Name}
    (invariant : VisitInvariant classes virtuals cha start state)
    (inGroup : className ∈ group)
    (isEntry : virtualEntry classes className methodName = true)
    (unexplored : ¬ Linked state.explored className methodName) :
    ∀ other ∈ group.keys, ¬ Linked state.explored other methodName := by
  intro other inside old
  have same := (isComponents.mem_iff chaUndirected listed inGroup).mp
    (OrdDict.mem_keys.mp inside)
  exact unexplored (invariant.related.closed other methodName old className
    (same.symm chaUndirected) isEntry)

/-- One round returns exactly when it collects no function twice. -/
theorem chaMethod_returns {state : ChaState} {className : Name}
    {method : Name × UInt8}
    (invariant : VisitInvariant classes virtuals cha start state)
    (inGroup : className ∈ group)
    (isEntry : isVirtual method.2 = true →
      virtualEntry classes className method.1 = true) :
    (∃ next, chaMethod classes virtuals group className state method = .ok next) ↔
      (isVirtual method.2 = true →
        SeparateIn classes virtuals cha className method.1) := by
  rw [chaMethod, gDirectedEdgeIn]
  by_cases visits : isVirtual method.2 = true ∧
      ¬ Linked state.explored className method.1
  · obtain ⟨virtual, unexplored⟩ := visits
    have fresh := groupUnexplored chaUndirected isComponents listed invariant inGroup
      (isEntry virtual) unexplored
    have collects := @foldlM_chaCollect_returns classes virtuals method.1
      group.keys group.keys_nodup (state.explored, ∅) fresh
    rw [virtual, decide_eq_false unexplored, Bool.not_false, Bool.and_self, if_pos rfl]
    rw [separateIn_iff_pairwise chaUndirected isComponents listed inGroup]
    constructor
    · rintro ⟨next, runs⟩ _
      obtain ⟨final, collected, _⟩ := bind_eq_ok.mp runs
      exact (collects.mp ⟨final, collected⟩).2
    · intro separate
      obtain ⟨⟨explored, eqc⟩, collected⟩ := collects.mpr
        ⟨fun _ _ key _ inEmpty => OrdDict.not_mem_empty key inEmpty, separate rfl⟩
      exact ⟨_, bind_eq_ok.mpr ⟨_, collected, rfl⟩⟩
  · have skips : (isVirtual method.2 &&
        !decide (Linked state.explored className method.1)) = false := by
      simpa using fun virtual => by
        by_contra unexplored
        exact visits ⟨virtual, unexplored⟩
    rw [skips]
    refine ⟨fun _ virtual => invariant.separate className method.1 ?_, fun _ => ⟨state, rfl⟩⟩
    by_contra unexplored
    exact visits ⟨virtual, unexplored⟩

/-- A round that returned leaves the explored methods separate. -/
theorem chaMethod_keeps {state next : ChaState} {className : Name}
    {method : Name × UInt8}
    (invariant : VisitInvariant classes virtuals cha start state)
    (inGroup : className ∈ group)
    (isEntry : isVirtual method.2 = true →
      virtualEntry classes className method.1 = true)
    (runs : chaMethod classes virtuals group className state method = .ok next) :
    VisitInvariant classes virtuals cha start next := by
  have separate := (chaMethod_returns chaUndirected isComponents listed invariant
    inGroup isEntry).mp ⟨next, runs⟩
  refine ⟨(chaMethod_spec chaUndirected isComponents listed inGroup isEntry
    invariant.related runs).1, fun other name explored => ?_⟩
  rw [chaMethod] at runs
  split at runs
  next visits =>
    obtain ⟨⟨exploredAfter, eqc⟩, collected, stored⟩ := bind_eq_ok.mp runs
    cases stored
    rcases ((foldlM_chaCollect group.keys group.keys_nodup _ _ collected).1
      other name).mp explored with old | ⟨inside, rfl, _⟩
    · exact invariant.separate other name old
    · have same := (isComponents.mem_iff chaUndirected listed inGroup).mp
        (OrdDict.mem_keys.mp inside)
      exact (separate (Bool.and_eq_true_iff.mp visits).1).of_same same
  next =>
    cases runs
    exact invariant.separate other name explored

omit chaUndirected isComponents listed in
/-- The entries of a class's method table are its entries in the class table. -/
private theorem entry_of_listed {className : Name} {methods : OrdDict Name UInt8}
    (located : dictFind classes className = some methods) {method : Name × UInt8}
    (inTable : method ∈ methods.entries) :
    virtualEntry classes className method.1 = isVirtual method.2 := by
  have found : dictFind methods method.1 = some method.2 :=
    OrdDict.find_eq_some.mpr inTable
  simp only [virtualEntry, located, found]

/-- The rounds over a class return exactly when its virtual methods are separate. -/
theorem chaClass_returns {state : ChaState} {className : Name}
    (invariant : VisitInvariant classes virtuals cha start state)
    (inGroup : className ∈ group) :
    (∃ next, chaClass classes virtuals group state className = .ok next) ↔
      ∀ methodName, virtualEntry classes className methodName = true →
        SeparateIn classes virtuals cha className methodName := by
  rw [chaClass]
  cases located : dictFind classes className with
  | none =>
      refine ⟨fun _ methodName isEntry => ?_, fun _ => ⟨state, rfl⟩⟩
      simp [virtualEntry, located] at isEntry
  | some methods =>
      have isEntry : ∀ method ∈ methods.entries, isVirtual method.2 = true →
          virtualEntry classes className method.1 = true :=
        fun method inTable virtual => (entry_of_listed located inTable).trans virtual
      refine (foldlM_returns_iff (VisitInvariant classes virtuals cha start)
        (fun method => isVirtual method.2 = true →
          SeparateIn classes virtuals cha className method.1)
        (fun method inTable state holds => chaMethod_returns chaUndirected
          isComponents listed holds inGroup (isEntry method inTable))
        (fun method inTable state next holds runs => chaMethod_keeps chaUndirected
          isComponents listed holds inGroup (isEntry method inTable) runs)
        invariant).trans ?_
      constructor
      · intro separate methodName isVirtualEntry
        simp only [virtualEntry, located] at isVirtualEntry
        cases found : dictFind methods methodName with
        | none =>
            simp [found] at isVirtualEntry
        | some attrs =>
            rw [found] at isVirtualEntry
            exact separate (methodName, attrs) (OrdDict.find_eq_some.mp found)
              isVirtualEntry
      · intro separate method inTable virtual
        exact separate method.1 (isEntry method inTable virtual)

/-- The rounds over a class keep what holds between two rounds. -/
theorem chaClass_keeps {state next : ChaState} {className : Name}
    (invariant : VisitInvariant classes virtuals cha start state)
    (inGroup : className ∈ group)
    (runs : chaClass classes virtuals group state className = .ok next) :
    VisitInvariant classes virtuals cha start next := by
  rw [chaClass] at runs
  cases located : dictFind classes className with
  | none =>
      rw [located] at runs
      cases runs
      exact invariant
  | some methods =>
      rw [located] at runs
      refine foldlM_invariant (fun _ => VisitInvariant classes virtuals cha start)
        invariant (fun done method rest current following split holds step => ?_) runs
      have inTable : method ∈ methods.entries := by
        rw [split]
        simp
      exact chaMethod_keeps chaUndirected isComponents listed holds inGroup
        (fun virtual => (entry_of_listed located inTable).trans virtual) step

end Visiting

section Returning

variable {classes : ClassTable}
  {virtuals : LinkMap (Option Name × Option Name) Name}
  {cha : LinkMap Name Name}

/--
`_build_cha_relations` returns exactly when no function implements a virtual method
in two classes of an inheritance group.
-/
theorem buildChaRelations_returns (chaUndirected : Undirected cha)
    (start : LinkMap Nat Nat) :
    (∃ result, buildChaRelations start classes cha virtuals = .ok result) ↔
      ∀ className ∈ cha, ∀ methodName,
        virtualEntry classes className methodName = true →
          SeparateIn classes virtuals cha className methodName := by
  obtain ⟨components, componentsRun, isComponents⟩ := gGetLcc_ok chaUndirected
  have initial : VisitInvariant classes virtuals cha start ⟨start, ∅⟩ := by
    refine ⟨⟨fun _ _ old => old, fun _ _ old => .inl old, fun same => same, ?_, ?_⟩, ?_⟩
    · exact fun _ _ linked => absurd linked (not_linked_empty _ _)
    · exact fun _ _ _ _ _ linked => absurd linked (not_linked_empty _ _)
    · exact fun _ _ linked => absurd linked (not_linked_empty _ _)
  have groupKeeps : ∀ group ∈ components, ∀ state next,
      VisitInvariant classes virtuals cha start state →
        group.keys.foldlM (chaClass classes virtuals group) state = .ok next →
          VisitInvariant classes virtuals cha start next := by
    intro group listed state next holds runs
    refine foldlM_invariant (fun _ => VisitInvariant classes virtuals cha start)
      holds (fun done className rest current following split kept step => ?_) runs
    have inGroup : className ∈ group := by
      rw [← OrdDict.mem_keys, split]
      simp
    exact chaClass_keeps chaUndirected isComponents listed kept inGroup step
  have groupReturns : ∀ group ∈ components, ∀ state,
      VisitInvariant classes virtuals cha start state →
        ((∃ next, group.keys.foldlM (chaClass classes virtuals group) state =
            .ok next) ↔
          ∀ className ∈ group.keys, ∀ methodName,
            virtualEntry classes className methodName = true →
              SeparateIn classes virtuals cha className methodName) := by
    intro group listed state holds
    exact foldlM_returns_iff (VisitInvariant classes virtuals cha start)
      (fun className => ∀ methodName,
        virtualEntry classes className methodName = true →
          SeparateIn classes virtuals cha className methodName)
      (fun className inGroup current kept => chaClass_returns chaUndirected
        isComponents listed kept (OrdDict.mem_keys.mp inGroup))
      (fun className inGroup current next kept step => chaClass_keeps chaUndirected
        isComponents listed kept (OrdDict.mem_keys.mp inGroup) step) holds
  have loop := foldlM_returns_iff (VisitInvariant classes virtuals cha start) _
    groupReturns groupKeeps initial
  have unfolded : (∃ result, buildChaRelations start classes cha virtuals =
      .ok result) ↔
        ∃ final, components.foldlM (fun state group =>
          group.keys.foldlM (chaClass classes virtuals group) state)
            ⟨start, ∅⟩ = .ok final := by
    rw [buildChaRelations, componentsRun]
    constructor
    · rintro ⟨result, runs⟩
      obtain ⟨_, same, runs⟩ := bind_eq_ok.mp runs
      cases same
      obtain ⟨final, looped, _⟩ := bind_eq_ok.mp runs
      exact ⟨final, looped⟩
    · rintro ⟨final, looped⟩
      exact ⟨final.callgraph,
        bind_eq_ok.mpr ⟨_, rfl, bind_eq_ok.mpr ⟨final, looped, rfl⟩⟩⟩
  rw [unfolded, loop]
  constructor
  · intro separate className inGraph
    obtain ⟨group, listed, inGroup⟩ := isComponents.covers className inGraph
    exact separate group listed className (OrdDict.mem_keys.mpr inGroup)
  · intro separate group listed className inGroup
    exact separate className ((isComponents.mem_graph_iff chaUndirected).mp
      ⟨group, listed, OrdDict.mem_keys.mp inGroup⟩)

/--
No two functions that are the same or aliases of each other implement a virtual
method in two classes of one inheritance group.
-/
def SeparateImplementations (info : Metainfo) : Prop :=
  ∀ f ∈ info.functions, ∀ g ∈ info.functions, ∀ left right methodName,
    f.className = some left → g.className = some right →
      f.methodName = some methodName → g.methodName = some methodName →
        virtualEntry info.classes left methodName = true →
          virtualEntry info.classes right methodName = true →
            SameComponent info.cha left right →
              (f.name = g.name ∨ SameComponent info.aliases f.name g.name) →
                left = right

/-- A name that two functions are filed under. -/
private theorem nameOrAlias_shared {aliases aliasesTc : LinkMap Name Name}
    (aliasesUndirected : Undirected aliases)
    (linkedAliases : ∀ first second,
      Linked aliasesTc first second ↔ SameComponent aliases first second)
    {f g : Function} :
    (∃ name, NameOrAlias aliasesTc f name ∧ NameOrAlias aliasesTc g name) ↔
      f.name = g.name ∨ SameComponent aliases f.name g.name := by
  simp only [NameOrAlias, linkedAliases]
  constructor
  · rintro ⟨name, rfl | fSame, isOther | gSame⟩
    · exact .inl isOther
    · exact .inr (gSame.symm aliasesUndirected)
    · exact .inr (isOther ▸ fSame)
    · exact .inr (fSame.trans (gSame.symm aliasesUndirected))
  · rintro (same | same)
    · exact ⟨f.name, .inl rfl, .inl same⟩
    · exact ⟨g.name, .inr same, .inl rfl⟩

/-- `build_callgraph` returns exactly on metadata with separate implementations. -/
theorem buildCallgraph_returns (attrs : UInt8) {info : Metainfo}
    (aliasesUndirected : Undirected info.aliases)
    (chaUndirected : Undirected info.cha) :
    (∃ result, buildCallgraph attrs info = .ok result) ↔
      SeparateImplementations info := by
  obtain ⟨aliasesTc, aliasesRun, linkedAliases⟩ :=
    gTransitiveClosure_ok aliasesUndirected
  obtain ⟨chacc, chaccRun, _⟩ := gTransitiveClosure_ok chaUndirected
  let groups := info.functions.foldl
    (groupFunction info.classes info.fats aliasesTc) (FuncGroups.start attrs)
  have unfolded : (∃ result, buildCallgraph attrs info = .ok result) ↔
      ∃ callgraph, buildChaRelations ∅ info.classes info.cha
        groups.virtualFuncsByClsMtd = .ok callgraph := by
    rw [buildCallgraph, aliasesRun, chaccRun]
    constructor
    · rintro ⟨result, runs⟩
      obtain ⟨_, same, runs⟩ := bind_eq_ok.mp runs
      cases same
      obtain ⟨_, same, runs⟩ := bind_eq_ok.mp runs
      cases same
      obtain ⟨callgraph, related, _⟩ := bind_eq_ok.mp runs
      exact ⟨callgraph, related⟩
    · rintro ⟨callgraph, related⟩
      exact ⟨_, bind_eq_ok.mpr ⟨_, rfl, bind_eq_ok.mpr ⟨_, rfl,
        bind_eq_ok.mpr ⟨callgraph, related, rfl⟩⟩⟩⟩
  have implements : ∀ {className methodName : Name} {key : Nat},
      Implements info.classes groups.virtualFuncsByClsMtd className methodName key ↔
        virtualEntry info.classes className methodName = true ∧
          ∃ f ∈ info.functions, f.className = some className ∧
            f.methodName = some methodName ∧
              ∃ name, NameOrAlias aliasesTc f name ∧ key = markFunc name := by
    intro className methodName key
    refine and_congr_right fun isEntry => ?_
    simp only [groups, linked_virtualFuncs_of_entry isEntry]
    constructor
    · rintro ⟨name, ⟨f, listed, ofClass, ofMethod, filed⟩, rfl⟩
      exact ⟨f, listed, ofClass, ofMethod, name, filed, rfl⟩
    · rintro ⟨f, listed, ofClass, ofMethod, name, filed, rfl⟩
      exact ⟨name, ⟨f, listed, ofClass, ofMethod, filed⟩, rfl⟩
  rw [unfolded, buildChaRelations_returns chaUndirected]
  constructor
  · intro separate f fListed g gListed left right methodName fClass gClass fMethod
      gMethod leftEntry rightEntry same shared
    obtain ⟨name, fFiled, gFiled⟩ :=
      (nameOrAlias_shared aliasesUndirected linkedAliases).mpr shared
    by_contra distinct
    exact separate left same.1 methodName leftEntry left right
      ⟨same.1, Relation.ReflTransGen.refl⟩ same distinct (markFunc name)
      (implements.mpr ⟨leftEntry, f, fListed, fClass, fMethod, name, fFiled, rfl⟩)
      (implements.mpr ⟨rightEntry, g, gListed, gClass, gMethod, name, gFiled, rfl⟩)
  · intro separate className _ methodName _ left right leftSame rightSame distinct key
      inLeft inRight
    obtain ⟨leftEntry, f, fListed, fClass, fMethod, name, fFiled, rfl⟩ :=
      implements.mp inLeft
    obtain ⟨rightEntry, g, gListed, gClass, gMethod, other, gFiled, same⟩ :=
      implements.mp inRight
    obtain rfl := markFunc_inj.mp same
    exact distinct (separate f fListed g gListed left right methodName fClass gClass
      fMethod gMethod leftEntry rightEntry
      ((leftSame.symm chaUndirected).trans rightSame)
      ((nameOrAlias_shared aliasesUndirected linkedAliases).mp
        ⟨name, fFiled, gFiled⟩))

/--
`gen_cfg` builds its graphs and generates its ids without tripping an assertion
exactly when no function, under its own name or an alias, implements a virtual method
in two classes of one inheritance group.
-/
theorem computeCfg_returns (attrs : UInt8) (runtime : Runtime) :
    (∃ cfg, computeCfg attrs runtime = .ok cfg) ↔
      SeparateImplementations (mergeMcfiMetainfo runtime.modules) := by
  rw [← buildCallgraph_returns attrs (undirected_aliases runtime.modules)
    (undirected_cha runtime.modules)]
  constructor
  · rintro ⟨cfg, runs⟩
    obtain ⟨result, callgraphRuns, _⟩ := bind_eq_ok.mp runs
    exact ⟨result, callgraphRuns⟩
  · rintro ⟨⟨callgraph, allFuncs⟩, callgraphRuns⟩
    obtain ⟨parts⟩ := buildCallgraph_parts (undirected_aliases runtime.modules)
      (undirected_cha runtime.modules) callgraphRuns
    have callUndirected := parts.undirected (undirected_cha runtime.modules)
    have retUndirected :=
      undirected_buildRetgraph callUndirected allFuncs runtime.modules
    obtain ⟨lcg, lcgRuns, _⟩ := gGetLcc_ok callUndirected
    obtain ⟨lrt, lrtRuns, _⟩ := gGetLcc_ok retUndirected
    obtain ⟨tables, tablesRun, _⟩ := genMcfiId_ok runtime.compatMode
      callUndirected retUndirected runtime.version lcgRuns lrtRuns
    -- the closure of the destroyed alias graph is empty
    have vmtdRuns : computeTcVmtd runtime.modules runtime.vtabletaken
        (mergeMcfiMetainfo runtime.modules).definedCtors ∅ =
          .ok (directVmtd runtime) := rfl
    exact ⟨_, by
      simp only [computeCfg, callgraphRuns, gTransitiveClosure_gDtor,
        computeFic_empty, vmtdRuns, lcgRuns, lrtRuns, tablesRun, bind, Except.bind]
      rfl⟩

end Returning

namespace AliasExample

/-- The class with a virtual destructor. -/
def baseClass : Name := Name.ofPtr 16

/-- A class that inherits from it and has a destructor of its own. -/
def derivedClass : Name := Name.ofPtr 32

/-- The method name of a destructor. -/
def destructor : Name := Name.ofPtr 48

/-- The symbol of its destructor. -/
def baseDestructor : Name := Name.ofPtr 64

/-- The symbol of the other class's destructor. -/
def derivedDestructor : Name := Name.ofPtr 80

/-- The function record of a destructor. -/
def destructorOf (name className : Name) : Function where
  name := name
  className := some className
  methodName := some destructor
  type := none
  returns := []
  dtails := []
  itails := []

/-- The class tables that both modules have. -/
def classTables : ClassTable :=
  let methods := (∅ : OrdDict Name UInt8).insertNew destructor Qualifier.virtual.bit
  ((∅ : ClassTable).insertNew baseClass methods).insertNew derivedClass methods

/-- A module that has the derived destructor as an alias of the other one. -/
def aliasModule : CodeModule :=
  { allocCodeModule with
    functions := [destructorOf baseDestructor baseClass]
    classes := classTables
    cha := gAddEdge ∅ derivedClass baseClass
    chaUndirected := undirected_empty.join _ _
    aliases := gAddEdge ∅ derivedDestructor baseDestructor
    aliasesUndirected := undirected_empty.join _ _ }

/-- A module, compiled in another way, that has the derived destructor's code. -/
def bodyModule : CodeModule :=
  { allocCodeModule with
    functions := [destructorOf derivedDestructor derivedClass]
    classes := classTables
    cha := gAddEdge ∅ derivedClass baseClass
    chaUndirected := undirected_empty.join _ _ }

/-- A process that has loaded both. -/
def aliasRuntime : Runtime :=
  loadElf bodyModule (loadElf aliasModule Runtime.boot)

end AliasExample

open AliasExample in
/-- A destructor that is an alias in one module and a function in another one. -/
theorem computeCfg_trips :
    ¬ ∀ (attrs : UInt8) (runtime : Runtime),
      ∃ cfg, computeCfg attrs runtime = .ok cfg := by
  intro all
  obtain ⟨cfg, runs⟩ := all 0 aliasRuntime
  have trips : (computeCfg 0 aliasRuntime).toOption.isSome = false := by
    decide +kernel
  rw [runs] at trips
  cases trips

end Mcfi
