import Mcfi.Runtime

namespace Mcfi

open LinkMap

/-!
# Closing sets of names under the aliases

`compute_fic` and `compute_tc_vmtd` add to a set the component of every name of
the set that they meet in the alias closure.  A name belongs to its own component,
and `dict_add` asserts that what it adds is new.
-/

/-- `compute_tc_vmtd`, for the dictionary that it is given. -/
def computeTcVmtdFrom (vmtd : LinkMap Name Nat) (modules : List CodeModule)
    (vtabletaken definedCtors : KeySet Name) (aliasesTc : LinkMap Name Name) :
    Rt (LinkMap Name Nat) :=
  aliasesTc.entries.foldlM (addAliases ∅)
    (modules.foldl (fun vmtd codeModule =>
      mergeDicts vmtd (getAllVmtd vtabletaken definedCtors codeModule.vtable)) vmtd)

/-- `gen_cfg` gives it the empty dictionary. -/
theorem computeTcVmtd_eq (modules : List CodeModule)
    (vtabletaken definedCtors : KeySet Name) (aliasesTc : LinkMap Name Name) :
    computeTcVmtd modules vtabletaken definedCtors aliasesTc =
      computeTcVmtdFrom ∅ modules vtabletaken definedCtors aliasesTc :=
  rfl

/-- The methods that `compute_tc_vmtd` has before it looks at the aliases. -/
def mergedVmtd (vmtd : LinkMap Name Nat) (modules : List CodeModule)
    (vtabletaken definedCtors : KeySet Name) : LinkMap Name Nat :=
  modules.foldl (fun vmtd codeModule =>
    mergeDicts vmtd (getAllVmtd vtabletaken definedCtors codeModule.vtable)) vmtd

/-- A name is in the closure of a set: a path of aliases leads to it from the set. -/
def InClosure {ν : Type} (aliases : LinkMap Name Name) (names : OrdDict Name ν)
    (name : Name) : Prop :=
  ∃ other ∈ names, Connected aliases other name

/-- Both functions return, with the closed sets. -/
structure ClosesSets (aliases aliasesTc : LinkMap Name Name)
    (fatsInCode vmtd : LinkMap Name Nat) (fatsInData : KeySet Name)
    (modules : List CodeModule) (vtabletaken definedCtors : KeySet Name) : Prop where
  fic : ∃ code data, computeFic fatsInCode fatsInData aliasesTc = .ok (code, data) ∧
    (∀ name, name ∈ data ↔ InClosure aliases fatsInData name) ∧
    ∀ name, name ∈ code ↔
      InClosure aliases fatsInCode name ∧ ¬ InClosure aliases fatsInData name
  vmtd : ∃ closed,
    computeTcVmtdFrom vmtd modules vtabletaken definedCtors aliasesTc = .ok closed ∧
      ∀ name, name ∈ closed ↔
        InClosure aliases (mergedVmtd vmtd modules vtabletaken definedCtors) name

section Closure

variable {aliases aliasesTc : LinkMap Name Name}

/-- A set without aliased names is closed. -/
theorem inClosure_iff {ν : Type} {names : OrdDict Name ν} {name : Name}
    (apart : ∀ other ∈ aliases, other ∉ names) :
    InClosure aliases names name ↔ name ∈ names := by
  constructor
  · rintro ⟨other, member, path⟩
    by_cases same : other = name
    · exact same ▸ member
    · exact absurd member (apart other (mem_of_connected_of_ne path same))
  · intro member
    exact ⟨name, member, Relation.ReflTransGen.refl⟩

/-- The alias closure lists the names with aliases, each in its own component. -/
theorem mem_entries_closure (undirected : Undirected aliases)
    (closes : gTransitiveClosure aliases = .ok aliasesTc) :
    (∀ entry ∈ aliasesTc.entries, entry.1 ∈ entry.2 ∧ entry.1 ∈ aliases) ∧
      ∀ name ∈ aliases, ∃ entry ∈ aliasesTc.entries, entry.1 = name := by
  obtain ⟨components, runs, isComponents⟩ := gGetLcc_ok undirected
  rw [gTransitiveClosure, runs] at closes
  cases closes
  constructor
  · rintro ⟨name, component⟩ listed
    obtain ⟨isListed, inside⟩ := (find_closureOfComponents isComponents.disjoint).mp
      (OrdDict.find_eq_some.mpr listed)
    obtain ⟨root, vertex, reached⟩ := isComponents.isComponent component isListed
    exact ⟨inside, undirected.mem_of_connected vertex ((reached name).mp inside)⟩
  · intro name vertex
    obtain ⟨component, isListed, inside⟩ := isComponents.covers name vertex
    exact ⟨(name, component), OrdDict.find_eq_some.mp
      ((find_closureOfComponents isComponents.disjoint).mpr ⟨isListed, inside⟩), rfl⟩

end Closure

section Loops

/--
A loop whose body returns, without a change, exactly on good items returns exactly
when all items are good.
-/
theorem foldlM_unchanged {α β : Type} {body : β → α → Rt β} {Good : β → α → Prop}
    {items : List α}
    (unchanged : ∀ item ∈ items, ∀ state next,
      body state item = .ok next ↔ Good state item ∧ state = next)
    {start final : β} :
    items.foldlM body start = .ok final ↔ (∀ item ∈ items, Good start item) ∧ start = final := by
  induction items with
  | nil => simp
  | cons item rest inductionHypothesis =>
      have later := inductionHypothesis fun other listed =>
        unchanged other (List.mem_cons_of_mem _ listed)
      rw [List.foldlM_cons, bind_eq_ok, List.forall_mem_cons]
      constructor
      · rintro ⟨next, first, runs⟩
        obtain ⟨good, rfl⟩ := (unchanged item List.mem_cons_self start next).mp first
        obtain ⟨others, same⟩ := later.mp runs
        exact ⟨⟨good, others⟩, same⟩
      · rintro ⟨⟨good, others⟩, same⟩
        exact ⟨start, (unchanged item List.mem_cons_self start start).mpr ⟨good, rfl⟩,
          later.mpr ⟨others, same⟩⟩

/-- Adding the component of a name that is in it fails if the name is in the set. -/
theorem addAliases_eq_ok {ν : Type} {value : ν} {fats result : OrdDict Name ν}
    {entry : Name × KeySet Name} (inside : entry.1 ∈ entry.2) :
    addAliases value fats entry = .ok result ↔ entry.1 ∉ fats ∧ fats = result := by
  unfold addAliases
  split
  next found =>
    rw [dictIn_iff] at found
    refine iff_of_false (fun added => ?_) fun apart => apart.1 found
    exact (foldlM_dictAdd_eq_ok added).2.1 entry.1 (OrdDict.mem_keys.mpr inside) found
  next missing =>
    rw [dictIn_iff] at missing
    rw [pure_eq_ok]
    exact ⟨fun same => ⟨missing, same⟩, fun found => found.2⟩

variable {aliasesTc : LinkMap Name Name}

/-- The loop of `compute_fic` over the alias closure. -/
theorem ficLoop_eq_ok {entries : List (Name × KeySet Name)}
    {start final : LinkMap Name Nat × KeySet Name}
    (inside : ∀ entry ∈ entries, entry.1 ∈ entry.2) :
    (entries.foldlM (fun (state : LinkMap Name Nat × KeySet Name) entry => do
        let fatsInCode ← addAliases ∅ state.1 entry
        let fatsInData ← addAliases () state.2 entry
        return (fatsInCode, fatsInData)) start = .ok final) ↔
      (∀ entry ∈ entries, entry.1 ∉ start.1 ∧ entry.1 ∉ start.2) ∧ start = final := by
  have body : ∀ entry ∈ entries, ∀ state next : LinkMap Name Nat × KeySet Name,
      (do
        let fatsInCode ← addAliases ∅ state.1 entry
        let fatsInData ← addAliases () state.2 entry
        return (fatsInCode, fatsInData) : Rt _) = .ok next ↔
      (entry.1 ∉ state.1 ∧ entry.1 ∉ state.2) ∧ state = next := by
    intro entry listed state next
    simp only [bind_eq_ok, addAliases_eq_ok (inside entry listed), pure_eq_ok]
    constructor
    · rintro ⟨code, ⟨notInCode, rfl⟩, data, ⟨notInData, rfl⟩, same⟩
      exact ⟨⟨notInCode, notInData⟩, same⟩
    · rintro ⟨⟨notInCode, notInData⟩, same⟩
      exact ⟨_, ⟨notInCode, rfl⟩, _, ⟨notInData, rfl⟩, same⟩
  exact foldlM_unchanged body

variable {aliasesTc : LinkMap Name Name}

/-- `compute_fic` returns exactly for sets without names of the alias closure. -/
theorem computeFic_eq_ok {fatsInCode code : LinkMap Name Nat} {fatsInData data : KeySet Name}
    (inside : ∀ entry ∈ aliasesTc.entries, entry.1 ∈ entry.2) :
    computeFic fatsInCode fatsInData aliasesTc = .ok (code, data) ↔
      (∀ entry ∈ aliasesTc.entries, entry.1 ∉ fatsInCode ∧ entry.1 ∉ fatsInData) ∧
        (fatsInCode.filterKeys fun key => !dictIn fatsInData key) = code ∧
        fatsInData = data := by
  rw [computeFic, bind_eq_ok]
  constructor
  · rintro ⟨_, loop, stored⟩
    obtain ⟨apart, rfl⟩ := (ficLoop_eq_ok inside).mp loop
    cases stored
    exact ⟨apart, rfl, rfl⟩
  · rintro ⟨apart, rfl, rfl⟩
    exact ⟨_, (ficLoop_eq_ok inside).mpr ⟨apart, rfl⟩, rfl⟩

/-- So does `compute_tc_vmtd`. -/
theorem computeTcVmtdFrom_eq_ok {vmtd closed : LinkMap Name Nat} {modules : List CodeModule}
    {vtabletaken definedCtors : KeySet Name}
    (inside : ∀ entry ∈ aliasesTc.entries, entry.1 ∈ entry.2) :
    computeTcVmtdFrom vmtd modules vtabletaken definedCtors aliasesTc = .ok closed ↔
      (∀ entry ∈ aliasesTc.entries,
        entry.1 ∉ mergedVmtd vmtd modules vtabletaken definedCtors) ∧
        mergedVmtd vmtd modules vtabletaken definedCtors = closed :=
  foldlM_unchanged fun entry listed _ _ => addAliases_eq_ok (inside entry listed)

end Loops

section Closing

variable {aliases aliasesTc : LinkMap Name Name} {fatsInCode vmtd : LinkMap Name Nat}
  {fatsInData : KeySet Name} {modules : List CodeModule}
  {vtabletaken definedCtors : KeySet Name}

/--
Both functions close their sets exactly when no name with an alias is in a set:
otherwise one of them stops at an assertion.
-/
theorem closesSets_iff (undirected : Undirected aliases)
    (closes : gTransitiveClosure aliases = .ok aliasesTc) :
    ClosesSets aliases aliasesTc fatsInCode vmtd fatsInData modules vtabletaken
        definedCtors ↔
      ∀ name ∈ aliases, name ∉ fatsInCode ∧ name ∉ fatsInData ∧
        name ∉ mergedVmtd vmtd modules vtabletaken definedCtors := by
  obtain ⟨entries, listed⟩ := mem_entries_closure undirected closes
  have inside := fun entry member => (entries entry member).1
  constructor
  · rintro ⟨⟨code, data, ficRuns, _⟩, closed, vmtdRuns, _⟩ name vertex
    obtain ⟨entry, member, rfl⟩ := listed name vertex
    have ficApart := ((computeFic_eq_ok inside).mp ficRuns).1 entry member
    have vmtdApart := ((computeTcVmtdFrom_eq_ok inside).mp vmtdRuns).1 entry member
    exact ⟨ficApart.1, ficApart.2, vmtdApart⟩
  · intro apart
    have codeClosed : ∀ name, InClosure aliases fatsInCode name ↔ name ∈ fatsInCode :=
      fun _ => inClosure_iff fun other vertex => (apart other vertex).1
    have dataClosed : ∀ name, InClosure aliases fatsInData name ↔ name ∈ fatsInData :=
      fun _ => inClosure_iff fun other vertex => (apart other vertex).2.1
    have vmtdClosed : ∀ name,
        InClosure aliases (mergedVmtd vmtd modules vtabletaken definedCtors) name ↔
          name ∈ mergedVmtd vmtd modules vtabletaken definedCtors :=
      fun _ => inClosure_iff fun other vertex => (apart other vertex).2.2
    refine ⟨⟨_, _, (computeFic_eq_ok inside).mpr ⟨?_, rfl, rfl⟩, ?_, ?_⟩,
      _, (computeTcVmtdFrom_eq_ok inside).mpr ⟨?_, rfl⟩, ?_⟩
    · intro entry member
      have fact := apart entry.1 (entries entry member).2
      exact ⟨fact.1, fact.2.1⟩
    · exact fun name => (dataClosed name).symm
    · intro name
      rw [codeClosed, dataClosed, OrdDict.mem_filterKeys, Bool.not_eq_true',
        ← Bool.not_eq_true, dictIn_iff]
    · exact fun entry member => (apart entry.1 (entries entry member).2).2.2
    · exact fun name => (vmtdClosed name).symm

/-- Two names of one function, of which one has its address taken in code. -/
def twoAliases : LinkMap Name Name :=
  gAddEdge ∅ (Name.ofPtr 16) (Name.ofPtr 17)

theorem undirected_twoAliases : Undirected twoAliases :=
  undirected_empty.join _ _

/-- The set with the first of them. -/
def firstTaken : LinkMap Name Nat :=
  (∅ : LinkMap Name Nat).insertNew (Name.ofPtr 16) ∅

/-- The assertion of `dict_add` fails on the name that is in the set already. -/
theorem computeFic_stops :
    ¬ ∀ (aliases aliasesTc : LinkMap Name Name) (fatsInCode vmtd : LinkMap Name Nat)
        (fatsInData : KeySet Name) (modules : List CodeModule)
        (vtabletaken definedCtors : KeySet Name),
      Undirected aliases → gTransitiveClosure aliases = .ok aliasesTc →
        ClosesSets aliases aliasesTc fatsInCode vmtd fatsInData modules vtabletaken
          definedCtors := by
  intro closes
  obtain ⟨closure, runs, _⟩ := gTransitiveClosure_ok undirected_twoAliases
  obtain ⟨_, _, ficRuns, _⟩ :=
    (closes twoAliases closure firstTaken ∅ ∅ [] ∅ ∅ undirected_twoAliases runs).fic
  obtain ⟨entries, listed⟩ := mem_entries_closure undirected_twoAliases runs
  have vertex : Name.ofPtr 16 ∈ twoAliases := by decide
  obtain ⟨entry, member, isFirst⟩ := listed _ vertex
  have apart := ((computeFic_eq_ok fun entry member => (entries entry member).1).mp
    ficRuns).1 entry member
  rw [isFirst] at apart
  exact absurd apart.1 (by decide)

/-- A set without either of them is closed. -/
theorem closesSets_iff_others :
    ∃ closure, gTransitiveClosure twoAliases = .ok closure ∧
      ClosesSets twoAliases closure ((∅ : LinkMap Name Nat).insertNew (Name.ofPtr 18) ∅) ∅ ∅
        [] ∅ ∅ := by
  obtain ⟨closure, runs, _⟩ := gTransitiveClosure_ok undirected_twoAliases
  refine ⟨closure, runs, (closesSets_iff undirected_twoAliases runs).mpr ?_⟩
  decide

end Closing

end Mcfi
