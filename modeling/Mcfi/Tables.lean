import Mcfi.Ident
import Mcfi.Metadata

namespace Mcfi

open LinkMap ByteMem

/-!
# Filling the tables

`gen_tary` and `gen_bary` walk the symbols of a module and store one word for
each.  A pass over the tables is the list of its stores, in the order in which
the loops perform them; running a store reads the word it replaces, because an
inactive target stays inactive.

Addresses are offsets into the table region, where the Tary entry of a code
address has the same offset as the address.
-/

/-- The word of eight `NPV` bytes. -/
def nativeWord : Nat := 0xFCFCFCFCFCFCFCFC

/-- One store of the passes that fill the tables. -/
inductive TableStore where
  /-- Eight bytes of the `memset` over the Tary range of a native module. -/
  | native (addr : Nat)
  /-- The word of a function symbol that has an id. -/
  | funcAddr (addr : Nat) (name : Name) (id : Nat)
  /-- The word of a return address that has an id. -/
  | returnAddr (addr : Nat) (activated : Bool) (id : Nat)
  /-- The word of a Bary slot. -/
  | bary (slot id : Nat)
  deriving DecidableEq

/-- The Tary region with the dictionaries of the targets not activated yet. -/
structure TableState where
  table : ByteMem
  fatsInCode : LinkMap Name Nat
  vmtd : LinkMap Name Nat

/-- `id & mask` for the mask `-2`. -/
def deactivate (id : Nat) : Nat :=
  id &&& 0xFFFFFFFFFFFFFFFE

/--
The body of a table-filling loop, for one symbol with an id.  With online
patching `gen_tary` passes `FALSE` as `activated` for the functions.
-/
def TableStore.exec (state : TableState) : TableStore → TableState
  | .native addr =>
      { state with table := state.table.store64 addr nativeWord }
  | .funcAddr addr name id =>
      if state.table.load64 addr % 2 = 0 then
        if dictIn state.fatsInCode name then
          { state with
            table := state.table.store64 addr (deactivate id)
            fatsInCode := gAddDirectedEdge state.fatsInCode name addr }
        else if dictIn state.vmtd name then
          { state with
            table := state.table.store64 addr (deactivate id)
            vmtd := gAddDirectedEdge state.vmtd name addr }
        else
          { state with table := state.table.store64 addr id }
      else
        { state with table := state.table.store64 addr id }
  | .returnAddr addr activated id =>
      if !activated && state.table.load64 addr % 2 == 0 then
        { state with table := state.table.store64 addr (deactivate id) }
      else
        { state with table := state.table.store64 addr id }
  | .bary slot id =>
      { state with table := state.table.store64 slot id }

/-- Running a pass. -/
def runStores (stores : List TableStore) (state : TableState) : TableState :=
  stores.foldl TableStore.exec state

/-- `populate_tary_for_func_addr`. -/
def populateTaryForFuncAddr (codeModule : CodeModule) (ids : OrdDict Nat Nat)
    (syms : List Symbol) (mark : Name → Nat) : List TableStore :=
  syms.filterMap fun sym =>
    (dictFind ids (mark sym.name)).map fun id =>
      .funcAddr (codeModule.baseAddr + sym.offset) (unmarkPtr sym.name.ptr) id

/-- `populate_tary_for_return_addr`. -/
def populateTaryForReturnAddr (codeModule : CodeModule) (ids : OrdDict Nat Nat)
    (syms : List Symbol) (mark : Name → Nat) (activated : Bool) :
    List TableStore :=
  syms.filterMap fun sym =>
    (dictFind ids (mark sym.name)).map fun id =>
      .returnAddr (codeModule.baseAddr + sym.offset) activated id

/-- `gen_tary`. -/
def genTary (tables : IdTables) (codeModule : CodeModule) : List TableStore :=
  if !codeModule.instrumented then
    (List.range (codeModule.sz / 8)).map fun index =>
      .native (codeModule.baseAddr + 8 * index)
  else
    populateTaryForFuncAddr codeModule tables.callids codeModule.funcsyms
        markFunc ++
      populateTaryForReturnAddr codeModule tables.retids codeModule.rad
        markRaDc codeModule.activated ++
      populateTaryForReturnAddr codeModule tables.retids codeModule.rai
        markRaIc codeModule.activated

/-- The id `gen_bary` picks for an indirect branch symbol. -/
def baryId (tables : IdTables) (icfsym : Symbol) : Nat :=
  match dictFind tables.callids (markIcj icfsym.name) with
  | some id => id
  | none =>
      match dictFind tables.retids (markRet icfsym.name) with
      | some id => id
      | none => tables.idForOthers

/-- `gen_bary`. -/
def genBary (tables : IdTables) (codeModule : CodeModule) : List TableStore :=
  codeModule.icfsyms.map fun icfsym =>
    .bary icfsym.offset (baryId tables icfsym)

/--
The table update of `gen_cfg`: the new modules first, then the targets of the
old ones, then their branches.
-/
def tableUpdate (tables : IdTables) (modules : List CodeModule) :
    List TableStore :=
  (modules.filter fun codeModule => !codeModule.cfggened).flatMap
      (fun codeModule => genTary tables codeModule ++ genBary tables codeModule) ++
    (modules.filter fun codeModule => codeModule.cfggened).flatMap
      (genTary tables) ++
    (modules.filter fun codeModule => codeModule.cfggened).flatMap
      (genBary tables)

namespace TableStore

/-- The address a store writes. -/
def addr : TableStore → Nat
  | native addr => addr
  | funcAddr addr _ _ => addr
  | returnAddr addr _ _ => addr
  | bary slot _ => slot

/-- The word a store writes, unless it keeps its target inactive. -/
def word : TableStore → Nat
  | native _ => nativeWord
  | funcAddr _ _ id => id
  | returnAddr _ _ id => id
  | bary _ id => id

/--
What a store does to the table: it writes its word, or the same word with bit 0
clear over a word whose bit 0 is clear.
-/
theorem exec_table (state : TableState) (store : TableStore) :
    (store.exec state).table = state.table.store64 store.addr store.word ∨
      ((store.exec state).table =
          state.table.store64 store.addr (deactivate store.word) ∧
        state.table.load64 store.addr % 2 = 0 ∧
        ∀ slot id, store ≠ .bary slot id) := by
  cases store with
  | native target =>
      exact Or.inl rfl
  | funcAddr target name id =>
      simp only [exec, TableStore.addr, TableStore.word]
      split
      next even =>
        split
        next => exact Or.inr ⟨rfl, even, by simp⟩
        next =>
          split
          next => exact Or.inr ⟨rfl, even, by simp⟩
          next => exact Or.inl rfl
      next => exact Or.inl rfl
  | returnAddr target activated id =>
      simp only [exec, TableStore.addr, TableStore.word]
      split
      next inactive =>
        rw [Bool.and_eq_true, beq_iff_eq] at inactive
        exact Or.inr ⟨rfl, inactive.2, by simp⟩
      next => exact Or.inl rfl
  | bary slot id =>
      exact Or.inl rfl

/-- The two words a store may leave at its address. -/
theorem load64_exec (state : TableState) {store : TableStore}
    (fits : store.word < 2 ^ 64) :
    (store.exec state).table.load64 store.addr = store.word ∨
      ((store.exec state).table.load64 store.addr = deactivate store.word ∧
        state.table.load64 store.addr % 2 = 0 ∧
        ∀ slot id, store ≠ .bary slot id) := by
  rcases exec_table state store with kept | ⟨masked, even, notBary⟩
  · exact Or.inl (by rw [kept, load64_store64_same _ _ fits])
  · refine Or.inr ⟨?_, even, notBary⟩
    have small : deactivate store.word < 2 ^ 64 := by
      rw [deactivate, and_minusTwo fits]
      omega
    rw [masked, load64_store64_same _ _ small]

/-- The word that the store of a slot leaves there. -/
theorem load64_exec_bary (state : TableState) {slot id : Nat}
    (small : id < 2 ^ 64) :
    (TableStore.exec state (.bary slot id)).table.load64 slot = id :=
  load64_store64_same _ _ small

/-- A store changes no byte outside its word. -/
theorem exec_other (state : TableState) (store : TableStore) {query : Nat}
    (outside : query < store.addr ∨ store.addr + 8 ≤ query) :
    (store.exec state).table query = state.table query := by
  rcases exec_table state store with kept | ⟨masked, _⟩
  · rw [kept, store64_other _ outside]
  · rw [masked, store64_other _ outside]

/-- A store at a word, or one that does not overlap it. -/
def Apart (query : Nat) (store : TableStore) : Prop :=
  store.addr = query ∨ query + 8 ≤ store.addr ∨ store.addr + 8 ≤ query

/-- Aligned stores are apart from aligned words. -/
theorem apart_of_aligned {query : Nat} {store : TableStore}
    (aligned : store.addr % 8 = 0) (queryAligned : query % 8 = 0) :
    store.Apart query := by
  unfold Apart
  omega

/-- A store elsewhere changes no word that it is apart from. -/
theorem load64_exec_other (state : TableState) {store : TableStore}
    {query : Nat} (apart : store.Apart query) (different : store.addr ≠ query) :
    (store.exec state).table.load64 query = state.table.load64 query := by
  have disjoint := apart.resolve_left different
  rcases exec_table state store with kept | ⟨masked, _⟩
  · rw [kept, load64_store64_disjoint _ disjoint]
  · rw [masked, load64_store64_disjoint _ disjoint]

end TableStore

section Passes

/-- Running two passes, one after the other. -/
theorem runStores_append (first second : List TableStore) (state : TableState) :
    runStores (first ++ second) state =
      runStores second (runStores first state) :=
  List.foldl_append

@[simp] theorem runStores_nil (state : TableState) :
    runStores [] state = state :=
  rfl

theorem runStores_cons (store : TableStore) (rest : List TableStore)
    (state : TableState) :
    runStores (store :: rest) state = runStores rest (store.exec state) :=
  rfl

/-- What each store preserves, a pass preserves. -/
theorem runStores_invariant
    {motive : TableState → Prop} {stores : List TableStore}
    (step : ∀ store ∈ stores, ∀ state, motive state → motive (store.exec state))
    {state : TableState} (initial : motive state) :
    motive (runStores stores state) := by
  induction stores generalizing state with
  | nil => exact initial
  | cons store rest inductionHypothesis =>
      exact inductionHypothesis
        (fun later member => step later (List.mem_cons_of_mem _ member))
        (step store (by simp) state initial)

/-- A pass of stores elsewhere changes no word that they are apart from. -/
theorem load64_runStores_other
    {stores : List TableStore} {state : TableState} {query : Nat}
    (apart : ∀ store ∈ stores, store.Apart query)
    (unwritten : ∀ store ∈ stores, store.addr ≠ query) :
    (runStores stores state).table.load64 query = state.table.load64 query := by
  refine runStores_invariant
    (motive := fun current =>
      current.table.load64 query = state.table.load64 query) ?_ rfl
  intro store listed current same
  rw [TableStore.load64_exec_other current (apart store listed)
    (unwritten store listed), same]

/--
The word a pass leaves at an address that it writes: whatever every store at that
address leaves there.
-/
theorem load64_runStores
    {stores : List TableStore} {state : TableState} {query : Nat}
    {motive : Nat → Prop}
    (apart : ∀ store ∈ stores, store.Apart query)
    (written : ∃ store ∈ stores, store.addr = query)
    (leaves : ∀ store ∈ stores, store.addr = query → ∀ current : TableState,
      motive ((store.exec current).table.load64 query)) :
    motive ((runStores stores state).table.load64 query) := by
  induction stores generalizing state with
  | nil =>
      obtain ⟨_, inNil, _⟩ := written
      exact (List.not_mem_nil inNil).elim
  | cons store rest inductionHypothesis =>
      rw [runStores_cons]
      by_cases later : ∃ other ∈ rest, other.addr = query
      · exact inductionHypothesis
          (fun other member => apart other (List.mem_cons_of_mem _ member))
          later
          (fun other member =>
            leaves other (List.mem_cons_of_mem _ member))
      · have here : store.addr = query := by
          obtain ⟨other, listed, atQuery⟩ := written
          rcases List.mem_cons.mp listed with rfl | inRest
          · exact atQuery
          · exact (later ⟨other, inRest, atQuery⟩).elim
        rw [load64_runStores_other
          (fun other member => apart other (List.mem_cons_of_mem _ member))
          (fun other member atQuery => later ⟨other, member, atQuery⟩)]
        exact leaves store (by simp) here state

end Passes

section Members

variable {tables : IdTables} {modules : List CodeModule}

/-- The stores of an update are the stores of its modules. -/
theorem mem_tableUpdate {store : TableStore} :
    store ∈ tableUpdate tables modules ↔
      ∃ codeModule ∈ modules,
        store ∈ genTary tables codeModule ∨ store ∈ genBary tables codeModule := by
  unfold tableUpdate
  simp only [List.mem_append, List.mem_flatMap, List.mem_filter,
    Bool.not_eq_true', or_assoc]
  constructor
  · rintro (⟨codeModule, ⟨loaded, _⟩, member⟩ |
      ⟨codeModule, ⟨loaded, _⟩, member⟩ | ⟨codeModule, ⟨loaded, _⟩, member⟩)
    · exact ⟨codeModule, loaded, member⟩
    · exact ⟨codeModule, loaded, Or.inl member⟩
    · exact ⟨codeModule, loaded, Or.inr member⟩
  · rintro ⟨codeModule, loaded, member⟩
    cases generated : codeModule.cfggened with
    | false =>
        exact Or.inl ⟨codeModule, ⟨loaded, generated⟩, member⟩
    | true =>
        rcases member with tary | bary
        · exact Or.inr (Or.inl ⟨codeModule, ⟨loaded, generated⟩, tary⟩)
        · exact Or.inr (Or.inr ⟨codeModule, ⟨loaded, generated⟩, bary⟩)

/-- The Tary stores of an instrumented module. -/
theorem mem_genTary_instrumented {codeModule : CodeModule}
    (instrumented : codeModule.instrumented = true) {store : TableStore} :
    store ∈ genTary tables codeModule ↔
      (∃ sym ∈ codeModule.funcsyms, ∃ id,
        tables.callids.find (markFunc sym.name) = some id ∧
          store = .funcAddr (codeModule.baseAddr + sym.offset) sym.name id) ∨
      (∃ sym ∈ codeModule.rad, ∃ id,
        tables.retids.find (markRaDc sym.name) = some id ∧
          store = .returnAddr (codeModule.baseAddr + sym.offset)
            codeModule.activated id) ∨
      (∃ sym ∈ codeModule.rai, ∃ id,
        tables.retids.find (markRaIc sym.name) = some id ∧
          store = .returnAddr (codeModule.baseAddr + sym.offset)
            codeModule.activated id) := by
  have unmark : ∀ name : Name, unmarkPtr name.ptr = name := unmarkPtr_markFunc
  simp only [genTary, instrumented, Bool.not_true, Bool.false_eq_true,
    if_false, populateTaryForFuncAddr, populateTaryForReturnAddr,
    List.mem_append, List.mem_filterMap, Option.map_eq_some_iff, dictFind,
    unmark, or_assoc]
  simp only [eq_comm (b := store)]

/-- The Tary stores of a native module. -/
theorem mem_genTary_native {codeModule : CodeModule}
    (native : codeModule.instrumented = false) {store : TableStore} :
    store ∈ genTary tables codeModule ↔
      ∃ index < codeModule.sz / 8,
        store = .native (codeModule.baseAddr + 8 * index) := by
  simp only [genTary, native, Bool.not_false, if_true, List.mem_map,
    List.mem_range]
  simp only [eq_comm (b := store)]

/-- The Bary stores of a module. -/
theorem mem_genBary {codeModule : CodeModule} {store : TableStore} :
    store ∈ genBary tables codeModule ↔
      ∃ icfsym ∈ codeModule.icfsyms,
        store = .bary icfsym.offset (baryId tables icfsym) := by
  simp only [genBary, List.mem_map]
  simp only [eq_comm (b := store)]

end Members

end Mcfi
