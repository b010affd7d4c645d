import Mcfi.CallGraph

namespace Mcfi

open LinkMap

/-!
# What the call graph links

The dictionaries that `build_callgraph` fills, link by link, and the edges it
adds to the call graph.  The virtual methods that one method of an inheritance
group implements end up connected, and nothing else is linked on account of the
class hierarchy.
-/

section Groups

variable {classes : ClassTable} {fats : KeySet Name}
  {aliasesTc : LinkMap Name Name}

/-- The attributes of a function that the class table makes an instance method. -/
def instanceAttrs (classes : ClassTable) (f : Function) : Option UInt8 :=
  (methodAttrs classes f).filter fun attrs => !isStatic attrs

/-- A function or one of its aliases. -/
def NameOrAlias (aliasesTc : LinkMap Name Name) (f : Function) (name : Name) :
    Prop :=
  name = f.name ∨ Linked aliasesTc f.name name

/--
Links of a group: when each function adds certain links to it, the group ends up
with the links some function adds.
-/
private theorem linked_foldl_groupFunction
    {α β : Type} (field : FuncGroups → LinkMap α β)
    [DecidableEq α] [DecidableEq β] {left : α} {right : β}
    (Adds : Function → Prop) (functions : List Function)
    (step : ∀ groups, ∀ f ∈ functions,
      (Linked (field (groupFunction classes fats aliasesTc groups f))
          left right ↔
        Adds f ∨ Linked (field groups) left right))
    (groups : FuncGroups) :
    Linked (field
        (functions.foldl (groupFunction classes fats aliasesTc) groups))
        left right ↔
      (∃ f ∈ functions, Adds f) ∨ Linked (field groups) left right := by
  induction functions generalizing groups with
  | nil =>
      simp
  | cons f rest inductionHypothesis =>
      rw [List.foldl_cons,
        inductionHypothesis fun groups other listed =>
          step groups other (List.mem_cons_of_mem _ listed),
        step groups f (by simp), List.exists_mem_cons_iff, or_left_comm,
        or_assoc]

/-- The names under which `build_callgraph` files each function. -/
theorem linked_allFuncs
    (functions : List Function) (attrs : UInt8) (name : Name) (f : Function) :
    Linked (functions.foldl (groupFunction classes fats aliasesTc)
        (FuncGroups.start attrs)).allFuncsByName name f ↔
      f ∈ functions ∧ NameOrAlias aliasesTc f name := by
  rw [linked_foldl_groupFunction FuncGroups.allFuncsByName
    (fun other => f = other ∧ NameOrAlias aliasesTc other name)]
  · simp [FuncGroups.start]
  · intro groups other _
    have unchanged :
        (groupFunction classes fats aliasesTc groups other).allFuncsByName =
          groups.allFuncsByName.linkAll
            ((other.name, other) ::
              ((aliasesTc.targets other.name).filter fun further =>
                further ≠ other.name).map fun further =>
                  (further, other)) := by
      unfold groupFunction
      grind
    rw [unchanged, linked_linkAll]
    simp only [List.mem_cons, List.mem_map, List.mem_filter, mem_targets,
      Prod.mk.injEq, NameOrAlias, decide_eq_true_eq]
    grind

/-- The plain functions filed under a type. -/
theorem linked_globalFuncs
    (functions : List Function) (attrs : UInt8) (type name : Name) :
    Linked (functions.foldl (groupFunction classes fats aliasesTc)
        (FuncGroups.start attrs)).globalFuncsByType type name ↔
      ∃ f ∈ functions, f.type = some type ∧ name = f.name ∧
        funcOrAliasAddrTaken fats f.name aliasesTc = true ∧
        instanceAttrs classes f = none := by
  rw [linked_foldl_groupFunction FuncGroups.globalFuncsByType
    (fun f => f.type = some type ∧ name = f.name ∧
      funcOrAliasAddrTaken fats f.name aliasesTc = true ∧
      instanceAttrs classes f = none)]
  · simp [FuncGroups.start]
  · intro groups f _
    unfold groupFunction isInstanceMethod instanceAttrs gAddDirectedEdge
    cases methodAttrs classes f <;> cases f.type <;> grind [linked_link]

/-- The instance methods without qualifiers filed under a type. -/
theorem linked_instanceFuncs
    (functions : List Function) (attrs : UInt8) (type name : Name) :
    Linked (functions.foldl (groupFunction classes fats aliasesTc)
        (FuncGroups.start attrs)).instanceFuncsByType type name ↔
      ∃ f ∈ functions, f.type = some type ∧
        NameOrAlias aliasesTc f name ∧
        funcOrAliasAddrTaken fats f.name aliasesTc = true ∧
        ∃ found, instanceAttrs classes f = some found ∧
          isConstant found = false ∧ isVolatile found = false := by
  rw [linked_foldl_groupFunction FuncGroups.instanceFuncsByType
    (fun f => f.type = some type ∧ NameOrAlias aliasesTc f name ∧
      funcOrAliasAddrTaken fats f.name aliasesTc = true ∧
      ∃ found, instanceAttrs classes f = some found ∧
        isConstant found = false ∧ isVolatile found = false)]
  · simp [FuncGroups.start]
  · intro groups f _
    unfold groupFunction isInstanceMethod instanceAttrs gAddDirectedEdge
      NameOrAlias
    cases methodAttrs classes f <;> cases f.type <;>
      grind [linked_linkAll, mem_targets]

/-- The constant instance methods filed under a type. -/
theorem linked_instanceConstFuncs
    (functions : List Function) (attrs : UInt8) (type name : Name) :
    Linked (functions.foldl (groupFunction classes fats aliasesTc)
        (FuncGroups.start attrs)).instanceFuncsByConstType type name ↔
      ∃ f ∈ functions, f.type = some type ∧ name = f.name ∧
        funcOrAliasAddrTaken fats f.name aliasesTc = true ∧
        ∃ found, instanceAttrs classes f = some found ∧
          isConstant found = true ∧ isVolatile found = false := by
  rw [linked_foldl_groupFunction FuncGroups.instanceFuncsByConstType
    (fun f => f.type = some type ∧ name = f.name ∧
      funcOrAliasAddrTaken fats f.name aliasesTc = true ∧
      ∃ found, instanceAttrs classes f = some found ∧
        isConstant found = true ∧ isVolatile found = false)]
  · simp [FuncGroups.start]
  · intro groups f _
    unfold groupFunction isInstanceMethod instanceAttrs gAddDirectedEdge
    cases methodAttrs classes f <;> cases f.type <;> grind [linked_link]

/-- The volatile instance methods filed under a type. -/
theorem linked_instanceVolatileFuncs
    (functions : List Function) (attrs : UInt8) (type name : Name) :
    Linked (functions.foldl (groupFunction classes fats aliasesTc)
        (FuncGroups.start attrs)).instanceFuncsByVolatileType type name ↔
      ∃ f ∈ functions, f.type = some type ∧ name = f.name ∧
        funcOrAliasAddrTaken fats f.name aliasesTc = true ∧
        ∃ found, instanceAttrs classes f = some found ∧
          isConstant found = false ∧ isVolatile found = true := by
  rw [linked_foldl_groupFunction FuncGroups.instanceFuncsByVolatileType
    (fun f => f.type = some type ∧ name = f.name ∧
      funcOrAliasAddrTaken fats f.name aliasesTc = true ∧
      ∃ found, instanceAttrs classes f = some found ∧
        isConstant found = false ∧ isVolatile found = true)]
  · simp [FuncGroups.start]
  · intro groups f _
    unfold groupFunction isInstanceMethod instanceAttrs gAddDirectedEdge
    cases methodAttrs classes f <;> cases f.type <;> grind [linked_link]

/-- The constant volatile instance methods filed under a type. -/
theorem linked_instanceConstVolatileFuncs
    (functions : List Function) (attrs : UInt8) (type name : Name) :
    Linked (functions.foldl (groupFunction classes fats aliasesTc)
        (FuncGroups.start attrs)).instanceFuncsByConstVolatileType
        type name ↔
      ∃ f ∈ functions, f.type = some type ∧ name = f.name ∧
        funcOrAliasAddrTaken fats f.name aliasesTc = true ∧
        ∃ found, instanceAttrs classes f = some found ∧
          isConstant found = true ∧ isVolatile found = true := by
  rw [linked_foldl_groupFunction FuncGroups.instanceFuncsByConstVolatileType
    (fun f => f.type = some type ∧ name = f.name ∧
      funcOrAliasAddrTaken fats f.name aliasesTc = true ∧
      ∃ found, instanceAttrs classes f = some found ∧
        isConstant found = true ∧ isVolatile found = true)]
  · simp [FuncGroups.start]
  · intro groups f _
    unfold groupFunction isInstanceMethod instanceAttrs gAddDirectedEdge
    cases methodAttrs classes f <;> cases f.type <;> grind [linked_link]

/--
No function that names a class and a method, but has no method entry, is filed as
virtual by the attribute byte left before it.
-/
def NoStaleVirtual (classes : ClassTable) : UInt8 → List Function → Prop
  | _, [] => True
  | attrs, f :: rest =>
      (f.className.isSome → f.methodName.isSome →
        methodAttrs classes f = none → isVirtual attrs = false) ∧
      NoStaleVirtual classes (isInstanceMethod classes f attrs).2 rest

/-- No stale byte files a function when each that names a method has its entry. -/
theorem noStaleVirtual_of_entries {functions : List Function}
    (entries : ∀ f ∈ functions, f.className.isSome → f.methodName.isSome →
      methodAttrs classes f ≠ none) (attrs : UInt8) :
    NoStaleVirtual classes attrs functions := by
  induction functions generalizing attrs with
  | nil =>
      trivial
  | cons f rest inductionHypothesis =>
      exact ⟨fun classNamed methodNamed missing =>
          absurd missing (entries f List.mem_cons_self classNamed methodNamed),
        inductionHypothesis
          (fun other listed => entries other (List.mem_cons_of_mem _ listed)) _⟩

/-- The method entry of a function that names its class and method. -/
theorem methodAttrs_of_names
    {f : Function} {className methodName : Name}
    (classNamed : f.className = some className)
    (methodNamed : f.methodName = some methodName) :
    virtualEntry classes className methodName =
      (methodAttrs classes f).any isVirtual := by
  simp only [virtualEntry, methodAttrs, classNamed, methodNamed]
  cases dictFind classes className with
  | none => simp
  | some methods =>
      cases located : dictFind methods methodName <;> simp [located]

/-- The virtual methods filed after one more function. -/
theorem virtualFuncs_groupFunction
    (groups : FuncGroups) (f : Function) :
    (groupFunction classes fats aliasesTc groups f).virtualFuncsByClsMtd =
        (if isVirtual ((methodAttrs classes f).getD groups.attrs) then
          gAddDirectedL2Edges groups.virtualFuncsByClsMtd
            f.className f.methodName (f.name :: aliasesTc.targets f.name)
        else
          groups.virtualFuncsByClsMtd) ∧
      (groupFunction classes fats aliasesTc groups f).attrs =
        (isInstanceMethod classes f groups.attrs).2 := by
  unfold groupFunction isInstanceMethod
  cases methodAttrs classes f <;> cases f.type <;> grind

/-- Filing never leaves a class and a method without a virtual method. -/
theorem populated_virtualFuncs
    (functions : List Function) (attrs : UInt8) :
    Populated (functions.foldl (groupFunction classes fats aliasesTc)
      (FuncGroups.start attrs)).virtualFuncsByClsMtd := by
  have fold : ∀ groups : FuncGroups, Populated groups.virtualFuncsByClsMtd →
      Populated (functions.foldl (groupFunction classes fats aliasesTc)
        groups).virtualFuncsByClsMtd := by
    induction functions with
    | nil => exact fun _ populated => populated
    | cons f rest inductionHypothesis =>
        intro groups populated
        apply inductionHypothesis
        rw [(virtualFuncs_groupFunction groups f).1]
        split
        next => exact populated.linkAll _
        next => exact populated
  exact fold _ populated_empty

/--
The virtual methods filed under a class and a method, when none is filed by a
stale attribute byte.
-/
theorem linked_virtualFuncs
    {functions : List Function} {attrs : UInt8}
    (noStale : NoStaleVirtual classes attrs functions)
    (className methodName name : Name) :
    Linked (functions.foldl (groupFunction classes fats aliasesTc)
        (FuncGroups.start attrs)).virtualFuncsByClsMtd
        (some className, some methodName) name ↔
      ∃ f ∈ functions, f.className = some className ∧
        f.methodName = some methodName ∧
        virtualEntry classes className methodName = true ∧
        NameOrAlias aliasesTc f name := by
  have fold : ∀ (groups : FuncGroups),
      NoStaleVirtual classes groups.attrs functions →
        (Linked (functions.foldl (groupFunction classes fats aliasesTc)
            groups).virtualFuncsByClsMtd
            (some className, some methodName) name ↔
          (∃ f ∈ functions, f.className = some className ∧
            f.methodName = some methodName ∧
            virtualEntry classes className methodName = true ∧
            NameOrAlias aliasesTc f name) ∨
          Linked groups.virtualFuncsByClsMtd
            (some className, some methodName) name) := by
    clear noStale
    induction functions with
    | nil =>
        simp
    | cons f rest inductionHypothesis =>
        intro groups noStale
        obtain ⟨virtuals, attrsAfter⟩ :=
          @virtualFuncs_groupFunction classes fats aliasesTc groups f
        have headStep :
            Linked (if isVirtual ((methodAttrs classes f).getD groups.attrs)
                then gAddDirectedL2Edges groups.virtualFuncsByClsMtd
                  f.className f.methodName
                  (f.name :: aliasesTc.targets f.name)
                else groups.virtualFuncsByClsMtd)
                (some className, some methodName) name ↔
              (f.className = some className ∧ f.methodName = some methodName ∧
                virtualEntry classes className methodName = true ∧
                NameOrAlias aliasesTc f name) ∨
              Linked groups.virtualFuncsByClsMtd
                (some className, some methodName) name := by
          by_cases named :
              f.className = some className ∧ f.methodName = some methodName
          · obtain ⟨classNamed, methodNamed⟩ := named
            have stale :=
              noStale.1 (by simp [classNamed]) (by simp [methodNamed])
            rw [methodAttrs_of_names classNamed methodNamed]
            unfold gAddDirectedL2Edges NameOrAlias
            cases entry : methodAttrs classes f with
            | none =>
                simp [stale entry]
            | some found =>
                cases virtual : isVirtual found <;>
                  simp [linked_linkAll, mem_targets, classNamed, methodNamed,
                    virtual]
          · unfold gAddDirectedL2Edges
            split <;> simp [linked_linkAll] <;> grind
        rw [List.foldl_cons, inductionHypothesis _ (attrsAfter ▸ noStale.2),
          virtuals, headStep, List.exists_mem_cons_iff]
        exact or_left_comm.trans or_assoc.symm
  rw [fold _ noStale]
  simp [FuncGroups.start]

/--
The functions filed under a virtual method that the class table holds; no stale
attribute byte files a function there.
-/
theorem linked_virtualFuncs_of_entry
    {className methodName : Name}
    (entry : virtualEntry classes className methodName = true)
    (functions : List Function) (attrs : UInt8) (name : Name) :
    Linked (functions.foldl (groupFunction classes fats aliasesTc)
        (FuncGroups.start attrs)).virtualFuncsByClsMtd
        (some className, some methodName) name ↔
      ∃ f ∈ functions, f.className = some className ∧
        f.methodName = some methodName ∧ NameOrAlias aliasesTc f name := by
  rw [linked_foldl_groupFunction FuncGroups.virtualFuncsByClsMtd
    (fun f => f.className = some className ∧ f.methodName = some methodName ∧
      NameOrAlias aliasesTc f name)]
  · simp [FuncGroups.start]
  · intro groups f _
    rw [(virtualFuncs_groupFunction groups f).1]
    unfold gAddDirectedL2Edges NameOrAlias
    by_cases named :
        f.className = some className ∧ f.methodName = some methodName
    · obtain ⟨classNamed, methodNamed⟩ := named
      have isEntry := entry
      rw [methodAttrs_of_names classNamed methodNamed] at isEntry
      cases located : methodAttrs classes f with
      | none =>
          rw [located] at isEntry
          cases isEntry
      | some found =>
          rw [located] at isEntry
          have virtual : isVirtual found = true := isEntry
          simp [virtual, linked_linkAll, mem_targets, classNamed, methodNamed]
    · split <;> simp [linked_linkAll] <;> grind

end Groups

section Hierarchy

variable {classes : ClassTable}
  {virtuals : LinkMap (Option Name × Option Name) Name}
  {cha : LinkMap Name Name}

/-- The function implements the class's virtual method. -/
def Implements (classes : ClassTable)
    (virtuals : LinkMap (Option Name × Option Name) Name)
    (className methodName : Name) (key : Nat) : Prop :=
  virtualEntry classes className methodName = true ∧
    ∃ name, Linked virtuals (some className, some methodName) name ∧
      key = markFunc name

/-- Two functions implement one method in one inheritance group. -/
def ChaRelated (classes : ClassTable)
    (virtuals : LinkMap (Option Name × Option Name) Name)
    (cha : LinkMap Name Name) (left right : Nat) : Prop :=
  ∃ leftClass rightClass methodName,
    SameComponent cha leftClass rightClass ∧
      Implements classes virtuals leftClass methodName left ∧
      Implements classes virtuals rightClass methodName right

/-- What collecting the implementations of a method over some classes does. -/
theorem foldlM_chaCollect
    {methodName : Name} (group : List Name) (nodup : group.Nodup)
    (state final : LinkMap Name Name × KeySet Nat)
    (runs : group.foldlM (chaCollect classes virtuals methodName) state =
      .ok final) :
    (∀ className method, Linked final.1 className method ↔
        Linked state.1 className method ∨
          (className ∈ group ∧ method = methodName ∧
            virtualEntry classes className methodName = true)) ∧
      (∀ key, key ∈ final.2 ↔ key ∈ state.2 ∨
        ∃ className ∈ group, ¬ Linked state.1 className methodName ∧
          Implements classes virtuals className methodName key) := by
  induction group generalizing state with
  | nil =>
      rw [List.foldlM_nil, pure_eq_ok] at runs
      subst runs
      simp
  | cons head rest inductionHypothesis =>
      rw [List.nodup_cons] at nodup
      rw [List.foldlM_cons, bind_eq_ok] at runs
      obtain ⟨middle, first, later⟩ := runs
      obtain ⟨explored, collected⟩ :=
        inductionHypothesis nodup.2 middle later
      -- the step at the head: either it adds all of the head's functions ...
      have headStep :
          (∀ className method, Linked middle.1 className method ↔
            Linked state.1 className method ∨
              (className = head ∧ method = methodName ∧
                virtualEntry classes head methodName = true)) ∧
            (∀ key, key ∈ middle.2 ↔ key ∈ state.2 ∨
              (¬ Linked state.1 head methodName ∧
                Implements classes virtuals head methodName key)) := by
        unfold chaCollect gDirectedEdgeIn gAddDirectedEdge gFindL2Vertex
          dictFind at first
        unfold Implements
        by_cases visits : virtualEntry classes head methodName = true ∧
            ¬ Linked state.1 head methodName
        · obtain ⟨isVirtualEntry, unexplored⟩ := visits
          simp only [isVirtualEntry, unexplored, decide_false, Bool.not_false,
            Bool.and_self, if_true] at first
          cases located :
              OrdDict.find virtuals (some head, some methodName) with
          | none =>
              rw [located, pure_eq_ok] at first
              subst first
              have noFunction : ∀ name,
                  ¬ Linked virtuals (some head, some methodName) name := by
                rintro name ⟨names, found, _⟩
                rw [located] at found
                cases found
              refine ⟨fun className method => ?_, fun key => ?_⟩
              · rw [linked_link]
                tauto
              · simp [noFunction]
          | some names =>
              rw [located, bind_eq_ok] at first
              obtain ⟨eqc, added, stored⟩ := first
              rw [pure_eq_ok] at stored
              subst stored
              rw [← List.foldlM_map (f := markFunc)
                (g := fun acc key => dictAdd acc key ())] at added
              have addedKeys := (foldlM_dictAdd_eq_ok added).2.2.2
              refine ⟨fun className method => ?_, fun key => ?_⟩
              · rw [linked_link]
                tauto
              · rw [addedKeys, List.mem_map]
                have linkedIff : ∀ name,
                    Linked virtuals (some head, some methodName) name ↔
                      name ∈ names.keys := by
                  intro name
                  unfold Linked
                  rw [located]
                  simp [OrdDict.mem_keys]
                simp only [linkedIff, isVirtualEntry, unexplored,
                  not_false_iff, true_and]
                constructor
                · rintro (⟨name, listed, rfl⟩ | old)
                  · exact Or.inr ⟨name, listed, rfl⟩
                  · exact Or.inl old
                · rintro (old | ⟨name, listed, rfl⟩)
                  · exact Or.inr old
                  · exact Or.inl ⟨name, listed, rfl⟩
        · -- ... or it leaves the state alone
          have skips :
              (virtualEntry classes head methodName &&
                !decide (Linked state.1 head methodName)) = false := by
            simpa using fun virtual => by
              by_contra unexplored
              exact visits ⟨virtual, unexplored⟩
          rw [skips] at first
          simp only [Bool.false_eq_true, if_false, pure_eq_ok] at first
          subst first
          refine ⟨fun className method => ?_, fun key => ?_⟩
          · constructor
            · exact Or.inl
            · rintro (old | ⟨rfl, rfl, virtual⟩)
              · exact old
              · by_contra unexplored
                exact visits ⟨virtual, unexplored⟩
          · constructor
            · exact Or.inl
            · rintro (old | ⟨unexplored, virtual, _⟩)
              · exact old
              · exact (visits ⟨virtual, unexplored⟩).elim
      refine ⟨fun className method => ?_, fun key => ?_⟩
      · rw [explored, headStep.1, List.mem_cons]
        constructor
        · rintro ((old | ⟨rfl, same, virtual⟩) | ⟨inRest, same, virtual⟩)
          · exact Or.inl old
          · exact Or.inr ⟨Or.inl rfl, same, virtual⟩
          · exact Or.inr ⟨Or.inr inRest, same, virtual⟩
        · rintro (old | ⟨rfl | inRest, same, virtual⟩)
          · exact Or.inl (Or.inl old)
          · exact Or.inl (Or.inr ⟨rfl, same, virtual⟩)
          · exact Or.inr ⟨inRest, same, virtual⟩
      · rw [collected, headStep.2, or_assoc, List.exists_mem_cons_iff]
        have restSame : ∀ className ∈ rest,
            (Linked middle.1 className methodName ↔
              Linked state.1 className methodName) := by
          intro className inRest
          rw [headStep.1]
          constructor
          · rintro (old | ⟨rfl, _⟩)
            · exact old
            · exact (nodup.1 inRest).elim
          · exact Or.inl
        apply or_congr_right
        apply or_congr_right
        constructor
        · rintro ⟨className, inRest, unexplored, implements⟩
          exact ⟨className, inRest,
            fun old => unexplored ((restSame className inRest).mpr old),
            implements⟩
        · rintro ⟨className, inRest, unexplored, implements⟩
          exact ⟨className, inRest,
            fun new => unexplored ((restSame className inRest).mp new),
            implements⟩

/--
What holds between two rounds of `_build_cha_relations`: a method explored in
one class of an inheritance group is explored in all of them, and then its
implementations are connected.
-/
structure ChaInvariant (classes : ClassTable)
    (virtuals : LinkMap (Option Name × Option Name) Name)
    (cha : LinkMap Name Name) (start : LinkMap Nat Nat) (state : ChaState) :
    Prop where
  kept : ∀ left right, Linked start left right →
    Linked state.callgraph left right
  sound : ∀ left right, Linked state.callgraph left right →
    Linked start left right ∨
      (left ≠ right ∧ ChaRelated classes virtuals cha left right)
  undirected : Undirected start → Undirected state.callgraph
  closed : ∀ className methodName,
    Linked state.explored className methodName →
      ∀ other, SameComponent cha className other →
        virtualEntry classes other methodName = true →
          Linked state.explored other methodName
  connected : ∀ leftClass rightClass methodName left right,
    Linked state.explored leftClass methodName →
      SameComponent cha leftClass rightClass →
        Implements classes virtuals leftClass methodName left →
          Implements classes virtuals rightClass methodName right →
            Connected state.callgraph left right

/-- The state `later` was reached from `earlier`. -/
def ExploredGrows (earlier later : ChaState) : Prop :=
  ∀ className methodName, Linked earlier.explored className methodName →
    Linked later.explored className methodName

/-- One round over a class's methods. -/
theorem chaMethod_spec
    (chaUndirected : Undirected cha) {start : LinkMap Nat Nat}
    {components : List (KeySet Name)}
    (isComponents : IsComponents cha components)
    {group : KeySet Name} (listed : group ∈ components)
    {className : Name} (inGroup : className ∈ group)
    {method : Name × UInt8}
    (entryVirtual : isVirtual method.2 = true →
      virtualEntry classes className method.1 = true)
    {state next : ChaState}
    (invariant : ChaInvariant classes virtuals cha start state)
    (runs : chaMethod classes virtuals group className state method =
      .ok next) :
    ChaInvariant classes virtuals cha start next ∧
      ExploredGrows state next ∧
      (isVirtual method.2 = true →
        Linked next.explored className method.1) := by
  obtain ⟨methodName, attrs⟩ := method
  unfold chaMethod gDirectedEdgeIn at runs
  by_cases visits : isVirtual attrs = true ∧
      ¬ Linked state.explored className methodName
  · obtain ⟨virtual, unexplored⟩ := visits
    simp only [virtual, unexplored, decide_false, Bool.not_false,
      Bool.and_self, if_true] at runs
    rw [bind_eq_ok] at runs
    obtain ⟨⟨explored, eqc⟩, collects, stored⟩ := runs
    rw [pure_eq_ok] at stored
    subst stored
    obtain ⟨exploredIff, eqcIff⟩ :=
      foldlM_chaCollect group.keys group.keys_nodup _ _ collects
    have sameGroup : ∀ other,
        other ∈ group ↔ SameComponent cha className other :=
      fun other => isComponents.mem_iff chaUndirected listed inGroup
    have virtualHere := entryVirtual virtual
    -- the method is new to the whole group, or it would not be new to the class
    have groupUnexplored : ∀ other ∈ group,
        ¬ Linked state.explored other methodName := by
      intro other inside old
      exact unexplored (invariant.closed other methodName old className
        (((sameGroup other).mp inside).symm chaUndirected) virtualHere)
    have eqcMembers : ∀ key, key ∈ eqc ↔
        ∃ other ∈ group, Implements classes virtuals other methodName key := by
      intro key
      rw [eqcIff]
      constructor
      · rintro (inEmpty | ⟨other, inside, _, implements⟩)
        · exact (OrdDict.not_mem_empty key inEmpty).elim
        · exact ⟨other, inside, implements⟩
      · rintro ⟨other, inside, implements⟩
        exact Or.inr ⟨other, inside, groupUnexplored other inside, implements⟩
    have linkedKept : ∀ left right, Linked state.callgraph left right →
        Linked (gAddCcToG state.callgraph eqc) left right :=
      fun left right old => (linked_gAddCcToG _ _ _ _).mpr (Or.inr old)
    refine ⟨⟨?_, ?_, ?_, ?_, ?_⟩, ?_, ?_⟩
    · exact fun left right old => linkedKept _ _ (invariant.kept _ _ old)
    · intro left right linked
      rcases (linked_gAddCcToG _ _ _ _).mp linked with
        ⟨first, rest, shape, new⟩ | old
      · have distinctKeys := eqc.keys_nodup
        rw [shape, List.nodup_cons] at distinctKeys
        have members : ∀ key, key = first ∨ key ∈ rest → key ∈ eqc := by
          intro key either
          rw [← OrdDict.mem_keys, shape]
          exact List.mem_cons.mpr either
        have related : ∀ key other, key ∈ eqc → other ∈ eqc →
            ChaRelated classes virtuals cha key other := by
          intro key other keyMember otherMember
          obtain ⟨keyClass, keyInside, keyImplements⟩ :=
            (eqcMembers key).mp keyMember
          obtain ⟨otherClass, otherInside, otherImplements⟩ :=
            (eqcMembers other).mp otherMember
          exact ⟨keyClass, otherClass, methodName,
            (((sameGroup keyClass).mp keyInside).symm chaUndirected).trans
              ((sameGroup otherClass).mp otherInside),
            keyImplements, otherImplements⟩
        rcases new with ⟨rfl, inRest⟩ | ⟨rfl, inRest⟩
        · exact Or.inr ⟨fun same => distinctKeys.1 (same ▸ inRest),
            related _ _ (members _ (Or.inl rfl)) (members _ (Or.inr inRest))⟩
        · exact Or.inr ⟨fun same => distinctKeys.1 (same ▸ inRest),
            related _ _ (members _ (Or.inr inRest)) (members _ (Or.inl rfl))⟩
      · exact invariant.sound left right old
    · exact fun startUndirected =>
        undirected_gAddCcToG (invariant.undirected startUndirected) eqc
    · intro first name linked other same otherVirtual
      rw [exploredIff] at linked ⊢
      rcases linked with old | ⟨inside, rfl, _⟩
      · exact Or.inl (invariant.closed _ _ old _ same otherVirtual)
      · refine Or.inr ⟨?_, rfl, otherVirtual⟩
        exact (sameGroup other).mpr (((sameGroup first).mp inside).trans same)
    · intro leftClass rightClass name left right linked same
        leftImplements rightImplements
      rcases (exploredIff leftClass name).mp linked with
        old | ⟨inside, rfl, _⟩
      · exact (invariant.connected _ _ _ _ _ old same leftImplements
          rightImplements).transport
            fun _ _ step => connected_of_linked (linkedKept _ _ step)
      · have rightInside : rightClass ∈ group :=
          (sameGroup rightClass).mpr (((sameGroup leftClass).mp inside).trans same)
        exact connected_gAddCcToG _ _
          ((eqcMembers left).mpr ⟨leftClass, inside, leftImplements⟩)
          ((eqcMembers right).mpr ⟨rightClass, rightInside, rightImplements⟩)
    · exact fun first name old => (exploredIff first name).mpr (Or.inl old)
    · exact fun _ => (exploredIff className methodName).mpr
        (Or.inr ⟨inGroup, rfl, virtualHere⟩)
  · have skips :
        (isVirtual attrs &&
          !decide (Linked state.explored className methodName)) = false := by
      simpa using fun virtual => by
        by_contra unexplored
        exact visits ⟨virtual, unexplored⟩
    simp only [skips, Bool.false_eq_true, if_false, pure_eq_ok] at runs
    subst runs
    refine ⟨invariant, fun _ _ old => old, fun virtual => ?_⟩
    by_contra unexplored
    exact visits ⟨virtual, unexplored⟩

/-- One round over the classes of an inheritance group. -/
theorem chaClass_spec
    (chaUndirected : Undirected cha) {start : LinkMap Nat Nat}
    {components : List (KeySet Name)}
    (isComponents : IsComponents cha components)
    {group : KeySet Name} (listed : group ∈ components)
    {className : Name} (inGroup : className ∈ group)
    {state next : ChaState}
    (invariant : ChaInvariant classes virtuals cha start state)
    (runs : chaClass classes virtuals group state className = .ok next) :
    ChaInvariant classes virtuals cha start next ∧
      ExploredGrows state next ∧
      (∀ methodName, virtualEntry classes className methodName = true →
        Linked next.explored className methodName) := by
  unfold chaClass at runs
  cases located : dictFind classes className with
  | none =>
      rw [located, pure_eq_ok] at runs
      subst runs
      refine ⟨invariant, fun _ _ old => old, ?_⟩
      intro methodName virtual
      simp [virtualEntry, located] at virtual
  | some methods =>
      rw [located] at runs
      have visited := foldlM_invariant
        (fun done current => ChaInvariant classes virtuals cha start current ∧
          ExploredGrows state current ∧
          ∀ method ∈ done, isVirtual method.2 = true →
            Linked current.explored className method.1)
        ⟨invariant, fun _ _ old => old, by simp⟩
        (by
          rintro done method rest current following split
            ⟨currentInvariant, grown, doneExplored⟩ step
          have inTable : (method.1, method.2) ∈ methods.entries := by
            rw [split]
            simp
          have entryVirtual : isVirtual method.2 = true →
              virtualEntry classes className method.1 = true := by
            intro virtual
            have foundMethod : dictFind methods method.1 = some method.2 :=
              OrdDict.find_eq_some.mpr inTable
            simp only [virtualEntry, located, foundMethod, virtual]
          obtain ⟨nextInvariant, grows, explored⟩ :=
            chaMethod_spec chaUndirected isComponents listed inGroup
              entryVirtual currentInvariant step
          refine ⟨nextInvariant,
            fun _ _ old => grows _ _ (grown _ _ old), ?_⟩
          intro other member virtual
          rcases List.mem_append.mp member with old | new
          · exact grows _ _ (doneExplored other old virtual)
          · rw [List.mem_singleton.mp new] at virtual ⊢
            exact explored virtual)
        runs
      refine ⟨visited.1, visited.2.1, ?_⟩
      intro methodName virtual
      simp only [virtualEntry, located] at virtual
      cases entry : dictFind methods methodName with
      | none =>
          simp [entry] at virtual
      | some attrs =>
          exact visited.2.2 (methodName, attrs)
            (OrdDict.find_eq_some.mp entry) (by simpa [entry] using virtual)

/--
`_build_cha_relations` on an undirected hierarchy: it connects the
implementations of a method in an inheritance group, and every edge it adds
links two of these.
-/
theorem buildChaRelations_spec
    (chaUndirected : Undirected cha) {start result : LinkMap Nat Nat}
    (runs : buildChaRelations start classes cha virtuals = .ok result) :
    (∀ left right, Linked start left right → Linked result left right) ∧
      (∀ left right, Linked result left right →
        Linked start left right ∨
          (left ≠ right ∧ ChaRelated classes virtuals cha left right)) ∧
      (Undirected start → Undirected result) ∧
      (∀ left right, ChaRelated classes virtuals cha left right →
        Connected result left right) := by
  unfold buildChaRelations at runs
  rw [bind_eq_ok] at runs
  obtain ⟨components, componentsRun, runs⟩ := runs
  rw [bind_eq_ok] at runs
  obtain ⟨final, loopRuns, stored⟩ := runs
  rw [pure_eq_ok] at stored
  subst stored
  obtain ⟨others, othersRun, isComponents⟩ := gGetLcc_ok chaUndirected
  rw [componentsRun] at othersRun
  cases othersRun
  have visited := foldlM_invariant
    (fun done current => ChaInvariant classes virtuals cha start current ∧
      ∀ group ∈ done, ∀ className ∈ group, ∀ methodName,
        virtualEntry classes className methodName = true →
          Linked current.explored className methodName)
    (by
      refine ⟨⟨fun _ _ old => old, fun _ _ old => Or.inl old, fun same => same,
        ?_, ?_⟩, by simp⟩
      · intro _ _ linked
        exact (not_linked_empty _ _ linked).elim
      · intro _ _ _ _ _ linked
        exact (not_linked_empty _ _ linked).elim)
    (by
      rintro done group rest current following split
        ⟨currentInvariant, doneExplored⟩ step
      have listed : group ∈ components := by
        rw [split]
        simp
      have classesVisited := foldlM_invariant
        (fun visited state => ChaInvariant classes virtuals cha start state ∧
          ExploredGrows current state ∧
          ∀ className ∈ visited, ∀ methodName,
            virtualEntry classes className methodName = true →
              Linked state.explored className methodName)
        ⟨currentInvariant, fun _ _ old => old, by simp⟩
        (by
          rintro visited className later state nextState keysSplit
            ⟨stateInvariant, grown, visitedExplored⟩ classStep
          have inGroup : className ∈ group := by
            rw [← OrdDict.mem_keys, keysSplit]
            simp
          obtain ⟨nextInvariant, grows, explored⟩ :=
            chaClass_spec chaUndirected isComponents listed inGroup
              stateInvariant classStep
          refine ⟨nextInvariant,
            fun _ _ old => grows _ _ (grown _ _ old), ?_⟩
          intro other member methodName virtual
          rcases List.mem_append.mp member with old | new
          · exact grows _ _ (visitedExplored other old methodName virtual)
          · rw [List.mem_singleton.mp new] at virtual ⊢
            exact explored methodName virtual)
        step
      refine ⟨classesVisited.1, ?_⟩
      intro other member className inside methodName virtual
      rcases List.mem_append.mp member with old | new
      · exact classesVisited.2.1 _ _
          (doneExplored other old className inside methodName virtual)
      · rw [List.mem_singleton.mp new] at inside
        exact classesVisited.2.2 className inside methodName virtual)
    loopRuns
  obtain ⟨invariant, explored⟩ := visited
  refine ⟨invariant.kept, invariant.sound, invariant.undirected, ?_⟩
  rintro left right
    ⟨leftClass, rightClass, methodName, same, leftImplements, rightImplements⟩
  obtain ⟨group, listed, inside⟩ := isComponents.covers leftClass same.1
  exact invariant.connected leftClass rightClass methodName left right
    (explored group listed leftClass inside methodName leftImplements.1)
    same leftImplements rightImplements

end Hierarchy

section Branches

/-- The edges added for the indirect branches. -/
theorem linked_foldl_addIcfEdges
    (groups : FuncGroups) (chacc : LinkMap Name Name)
    (icfs : List Icf) (callgraph : LinkMap Nat Nat) (left right : Nat) :
    Linked (icfs.foldl (addIcfEdges groups chacc) callgraph) left right ↔
      (∃ icf ∈ icfs, ∃ name ∈ icfTargets groups chacc icf,
        (left = markIcj icf.id ∧ right = markFunc name) ∨
          (left = markFunc name ∧ right = markIcj icf.id)) ∨
        Linked callgraph left right := by
  have oneBranch : ∀ (icf : Icf) (graph : LinkMap Nat Nat),
      Linked (addIcfEdges groups chacc graph icf) left right ↔
        (∃ name ∈ icfTargets groups chacc icf,
          (left = markIcj icf.id ∧ right = markFunc name) ∨
            (left = markFunc name ∧ right = markIcj icf.id)) ∨
          Linked graph left right := by
    intro icf graph
    rw [addIcfEdges, gAddEdges, linked_joinAll]
    simp only [List.mem_map, Prod.mk.injEq]
    grind
  induction icfs generalizing callgraph with
  | nil =>
      simp
  | cons icf rest inductionHypothesis =>
      refine (inductionHypothesis _).trans ?_
      rw [oneBranch, List.exists_mem_cons_iff, or_left_comm, or_assoc]

/-- Adding the branches' edges keeps a graph undirected. -/
theorem undirected_foldl_addIcfEdges
    {groups : FuncGroups} {chacc : LinkMap Name Name} {icfs : List Icf}
    {callgraph : LinkMap Nat Nat} (undirected : Undirected callgraph) :
    Undirected (icfs.foldl (addIcfEdges groups chacc) callgraph) := by
  intro left right linked
  rw [linked_foldl_addIcfEdges] at linked ⊢
  rcases linked with ⟨icf, listed, name, target, new⟩ | old
  · exact Or.inl ⟨icf, listed, name, target, new.symm.imp And.symm And.symm⟩
  · exact Or.inr (undirected old)

/-- The pieces from which a returned call graph was built. -/
structure CallgraphParts (attrs : UInt8) (info : Metainfo)
    (callgraph : LinkMap Nat Nat) (allFuncs : LinkMap Name Function) where
  aliasesTc : LinkMap Name Name
  chacc : LinkMap Name Name
  chaGraph : LinkMap Nat Nat
  groups : FuncGroups
  groupsAre : groups = info.functions.foldl
    (groupFunction info.classes info.fats aliasesTc) (FuncGroups.start attrs)
  linkedAliases : ∀ first second,
    Linked aliasesTc first second ↔ SameComponent info.aliases first second
  linkedChacc : ∀ first second,
    Linked chacc first second ↔ SameComponent info.cha first second
  chaRuns : buildChaRelations ∅ info.classes info.cha
    groups.virtualFuncsByClsMtd = .ok chaGraph
  callgraphIs : callgraph = info.icfs.foldl (addIcfEdges groups chacc) chaGraph
  allFuncsAre : allFuncs = groups.allFuncsByName

/-- A returned call graph comes with its pieces, built from the two closures. -/
theorem exists_callgraphParts
    {attrs : UInt8} {info : Metainfo} {callgraph : LinkMap Nat Nat}
    {allFuncs : LinkMap Name Function} {aliasesTc chacc : LinkMap Name Name}
    (aliasesUndirected : Undirected info.aliases)
    (chaUndirected : Undirected info.cha)
    (aliasesRun : gTransitiveClosure info.aliases = .ok aliasesTc)
    (chaccRun : gTransitiveClosure info.cha = .ok chacc)
    (runs : buildCallgraph attrs info = .ok (callgraph, allFuncs)) :
    ∃ parts : CallgraphParts attrs info callgraph allFuncs,
      parts.aliasesTc = aliasesTc ∧ parts.chacc = chacc := by
  obtain ⟨_, aliasesAgain, linkedAliases⟩ := gTransitiveClosure_ok aliasesUndirected
  obtain ⟨_, chaccAgain, linkedChacc⟩ := gTransitiveClosure_ok chaUndirected
  cases aliasesAgain.symm.trans aliasesRun
  cases chaccAgain.symm.trans chaccRun
  rw [buildCallgraph, aliasesRun, chaccRun, bind_eq_ok] at runs
  obtain ⟨_, aliasesIs, runs⟩ := runs
  cases aliasesIs
  rw [bind_eq_ok] at runs
  obtain ⟨_, chaccIs, runs⟩ := runs
  cases chaccIs
  rw [bind_eq_ok] at runs
  obtain ⟨chaGraph, chaRuns, stored⟩ := runs
  rw [pure_eq_ok, Prod.mk.injEq] at stored
  exact ⟨{
    aliasesTc := aliasesTc
    chacc := chacc
    chaGraph := chaGraph
    groups := _
    groupsAre := rfl
    linkedAliases := linkedAliases
    linkedChacc := linkedChacc
    chaRuns := chaRuns
    callgraphIs := stored.1.symm
    allFuncsAre := stored.2.symm }, rfl, rfl⟩

/-- A returned call graph comes with the pieces it was built from. -/
theorem buildCallgraph_parts
    {attrs : UInt8} {info : Metainfo} {callgraph : LinkMap Nat Nat}
    {allFuncs : LinkMap Name Function}
    (aliasesUndirected : Undirected info.aliases)
    (chaUndirected : Undirected info.cha)
    (runs : buildCallgraph attrs info = .ok (callgraph, allFuncs)) :
    Nonempty (CallgraphParts attrs info callgraph allFuncs) := by
  obtain ⟨_, aliasesRun, _⟩ := gTransitiveClosure_ok aliasesUndirected
  obtain ⟨_, chaccRun, _⟩ := gTransitiveClosure_ok chaUndirected
  obtain ⟨parts, _⟩ := exists_callgraphParts aliasesUndirected chaUndirected aliasesRun
    chaccRun runs
  exact ⟨parts⟩

namespace CallgraphParts

variable {attrs : UInt8} {info : Metainfo} {callgraph : LinkMap Nat Nat}
  {allFuncs : LinkMap Name Function}
  (parts : CallgraphParts attrs info callgraph allFuncs)
include parts

/-- The call graph is undirected. -/
theorem undirected (chaUndirected : Undirected info.cha) :
    Undirected callgraph := by
  rw [parts.callgraphIs]
  apply undirected_foldl_addIcfEdges
  exact (buildChaRelations_spec chaUndirected parts.chaRuns).2.2.1
    undirected_empty

/-- Each function is filed under its name and its aliases. -/
theorem linked_allFuncs_iff (name : Name) (f : Function) :
    Linked allFuncs name f ↔
      f ∈ info.functions ∧
        (name = f.name ∨ SameComponent info.aliases f.name name) := by
  rw [parts.allFuncsAre, parts.groupsAre, linked_allFuncs, NameOrAlias,
    parts.linkedAliases]

/-- An edge of the call graph: a branch and a target, or two related methods. -/
theorem linked_iff (chaUndirected : Undirected info.cha) {left right : Nat}
    (linked : Linked callgraph left right) :
    (∃ icf ∈ info.icfs, ∃ name ∈ icfTargets parts.groups parts.chacc icf,
        (left = markIcj icf.id ∧ right = markFunc name) ∨
          (left = markFunc name ∧ right = markIcj icf.id)) ∨
      (left ≠ right ∧
        ChaRelated info.classes parts.groups.virtualFuncsByClsMtd info.cha
          left right) := by
  rw [parts.callgraphIs, linked_foldl_addIcfEdges] at linked
  refine linked.imp_right fun old => ?_
  rcases (buildChaRelations_spec chaUndirected parts.chaRuns).2.1 _ _ old with
    inEmpty | related
  · exact (not_linked_empty _ _ inEmpty).elim
  · exact related

end CallgraphParts

end Branches

end Mcfi
