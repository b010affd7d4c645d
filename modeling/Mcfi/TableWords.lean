import Mcfi.Generation

namespace Mcfi

open LinkMap ByteMem

/-!
# The words a generation leaves in the tables

A Tary symbol is a function, or the return address of a direct or an indirect
call.  When symbols at one address have one node and the Bary slots are apart,
the word at a symbol is the id of its node, up to the activation bit, and the
word of a slot is the id that `gen_bary` picked.
-/

/-- The kinds of Tary symbols. -/
inductive TaryKind where
  | function
  | directReturn
  | indirectReturn
  deriving DecidableEq

namespace TaryKind

/-- The symbols of a kind in a module. -/
def symbols (codeModule : CodeModule) : TaryKind → List Symbol
  | function => codeModule.funcsyms
  | directReturn => codeModule.rad
  | indirectReturn => codeModule.rai

/-- The node of a symbol of a kind. -/
def mark : TaryKind → Name → Nat
  | function => markFunc
  | directReturn => markRaDc
  | indirectReturn => markRaIc

/-- The ids that the symbols of a kind receive. -/
def ids (tables : IdTables) : TaryKind → OrdDict Nat Nat
  | function => tables.callids
  | directReturn => tables.retids
  | indirectReturn => tables.retids

/-- The nodes of symbols of different kinds or names are different. -/
theorem mark_inj {kind otherKind : TaryKind} {name otherName : Name}
    (same : kind.mark name = otherKind.mark otherName) :
    kind = otherKind ∧ name = otherName := by
  have marks := marks_bounds name
  have otherMarks := marks_bounds otherName
  have namesOf : name.ptr = otherName.ptr → name = otherName := Name.ext_ptr
  cases kind <;> cases otherKind <;> simp only [mark] at same <;>
    first
      | exact ⟨rfl, namesOf (by omega)⟩
      | omega

end TaryKind

/-- A word of a generation: a half id over the version, with bit 0 set. -/
def IsId (mcfiVersion id : Nat) : Prop :=
  VersionFormat mcfiVersion ∧ ∃ half < 2 ^ 32, id = makeId half mcfiVersion

namespace IsId

variable {mcfiVersion id : Nat} (isId : IsId mcfiVersion id)
include isId

/-- Bit 0 of an id is set. -/
theorem odd : id % 2 = 1 := by
  obtain ⟨format, half, _, rfl⟩ := isId
  exact makeId_odd format

/-- The low half of an id is its version with bit 0 set. -/
theorem low : id % 2 ^ 32 = mcfiVersion + 1 := by
  obtain ⟨format, half, _, rfl⟩ := isId
  exact makeId_low format

/-- An id is a 64-bit word. -/
theorem lt : id < 2 ^ 64 := by
  obtain ⟨format, half, small, rfl⟩ := isId
  exact makeId_lt small format

/-- Setting bit 0 of an id changes nothing. -/
theorem or_one_eq : id ||| 1 = id := by
  rw [or_one]
  have odd := isId.odd
  omega

/-- A deactivated id is the id less one. -/
theorem deactivate_eq : deactivate id = id - 1 := by
  rw [deactivate, and_minusTwo isId.lt, isId.odd]

/-- Setting bit 0 of a deactivated id gives the id back. -/
theorem deactivate_or_one : deactivate id ||| 1 = id := by
  have odd := isId.odd
  rw [isId.deactivate_eq, or_one]
  omega

end IsId

namespace IdAssignment

variable {compatMode : Bool} {callgraph retgraph : LinkMap Nat Nat}
  {version : Nat} {tables : IdTables}
  (assignment : IdAssignment compatMode callgraph retgraph version tables)
include assignment

/-- The component ids are ids of the generation's version. -/
private theorem isId_of_index
    {dv eqcNumber index id : Nat} (small : dv < 2 ^ 32)
    (idIs : id = makeId (componentHalf compatMode dv eqcNumber index)
      (convertToMcfiHalfIdFormat version).1) :
    IsId (convertToMcfiHalfIdFormat version).1 id := by
  refine ⟨(convert_format version).version, _, ?_, idIs⟩
  cases compatMode with
  | true => exact small
  | false => exact (convert_format _).isFourBytes

/-- Call ids are ids of the generation's version. -/
theorem callid_isId
    {key id : Nat} (found : tables.callids.find key = some id) :
    IsId (convertToMcfiHalfIdFormat version).1 id := by
  obtain ⟨index, _, idIs⟩ := assignment.callIds.hasIndex key id found
  exact assignment.isId_of_index (by decide) idIs

/-- Return ids are ids of the generation's version. -/
theorem retid_isId
    {key id : Nat} (found : tables.retids.find key = some id) :
    IsId (convertToMcfiHalfIdFormat version).1 id := by
  obtain ⟨index, _, idIs⟩ := assignment.retIds.hasIndex key id found
  exact assignment.isId_of_index (by decide) idIs

/-- The ids of every kind of symbol are ids of the generation's version. -/
theorem taryId_isId
    (kind : TaryKind) {key id : Nat}
    (found : (kind.ids tables).find key = some id) :
    IsId (convertToMcfiHalfIdFormat version).1 id := by
  cases kind with
  | function => exact assignment.callid_isId found
  | directReturn => exact assignment.retid_isId found
  | indirectReturn => exact assignment.retid_isId found

/-- Outside compatibility mode the id for others is an id as well. -/
theorem idForOthers_isId (notCompat : compatMode = false) :
    IsId (convertToMcfiHalfIdFormat version).1 tables.idForOthers := by
  have othersAre := assignment.othersAre
  simp only [notCompat, Bool.false_eq_true, if_false] at othersAre
  exact ⟨(convert_format version).version, _,
    (convert_format _).isFourBytes, othersAre⟩

/-- Outside compatibility mode every branch has an id. -/
theorem baryId_isId (notCompat : compatMode = false) (icfsym : Symbol) :
    IsId (convertToMcfiHalfIdFormat version).1 (baryId tables icfsym) := by
  unfold baryId dictFind
  split
  next id found => exact assignment.callid_isId found
  next =>
    split
    next id found => exact assignment.retid_isId found
    next => exact assignment.idForOthers_isId notCompat

/-- Every branch has a 64-bit word. -/
theorem baryId_lt (icfsym : Symbol) : baryId tables icfsym < 2 ^ 64 := by
  unfold baryId dictFind
  split
  next id found => exact (assignment.callid_isId found).lt
  next =>
    split
    next id found => exact (assignment.retid_isId found).lt
    next =>
      cases compatMode with
      | true =>
          have npvFits : NPV < 2 ^ 64 := by decide
          rwa [assignment.othersAre, if_pos rfl]
      | false => exact (assignment.idForOthers_isId rfl).lt

end IdAssignment

/-- A Tary symbol of a module list. -/
structure TarySymbol (modules : List CodeModule) where
  codeModule : CodeModule
  loaded : codeModule ∈ modules
  kind : TaryKind
  sym : Symbol
  listed : sym ∈ kind.symbols codeModule

namespace TarySymbol

variable {modules : List CodeModule}

/-- The address of a symbol, which is also the offset of its Tary word. -/
def addr (target : TarySymbol modules) : Nat :=
  target.codeModule.baseAddr + target.sym.offset

/-- The graph vertex of a symbol. -/
def node (target : TarySymbol modules) : Nat :=
  target.kind.mark target.sym.name

/-- The id that a symbol receives. -/
def id (tables : IdTables) (target : TarySymbol modules) : Option Nat :=
  (target.kind.ids tables).find target.node

end TarySymbol

/-- An indirect branch of a module list. -/
structure Branch (modules : List CodeModule) where
  codeModule : CodeModule
  loaded : codeModule ∈ modules
  sym : Symbol
  listed : sym ∈ codeModule.icfsyms

/-- An aligned word below every module. -/
structure LowWord (slot : Nat) : Prop where
  aligned : slot % 8 = 0
  low : slot + 8 ≤ x64AbiBase

/-- A low word is a 32-bit number. -/
theorem LowWord.lt {slot : Nat} (place : LowWord slot) : slot < 2 ^ 32 := by
  have low := place.low
  unfold x64AbiBase at low
  omega

/-- The symbols lie on whole words. -/
structure AlignedSymbols (modules : List CodeModule) : Prop where
  taryAligned : ∀ target : TarySymbol modules, target.sym.offset % 8 = 0
  baryAligned : ∀ branch : Branch modules, branch.sym.offset % 8 = 0

/--
In addition there is one name for each Bary slot, and no slot is among the Tary
addresses.
-/
structure SlotsApart (modules : List CodeModule) : Prop extends
    AlignedSymbols modules where
  barySeparate : ∀ first second : Branch modules,
    first.sym.offset = second.sym.offset → first.sym.name = second.sym.name
  apart : ∀ (branch : Branch modules) (target : TarySymbol modules),
    branch.sym.offset ≠ target.addr

/-- In addition, all symbols at a Tary address have one node. -/
structure SeparatePlaces (modules : List CodeModule) : Prop extends
    SlotsApart modules where
  tarySeparate : ∀ first second : TarySymbol modules,
    first.addr = second.addr → first.node = second.node

/-- The range of a native module holds no word of another one's symbols. -/
structure NativeApart (modules : List CodeModule) : Prop where
  targets : ∀ native ∈ modules, native.instrumented = false →
    ∀ target : TarySymbol modules, target.codeModule.instrumented = true →
      ¬ native.Holds target.addr
  slots : ∀ native ∈ modules, native.instrumented = false →
    ∀ branch : Branch modules, ¬ native.Holds branch.sym.offset

/-- Without native modules nothing lies in their ranges. -/
theorem nativeApart_of_instrumented {modules : List CodeModule}
    (instrumented : ∀ codeModule ∈ modules, codeModule.instrumented = true) :
    NativeApart modules where
  targets native loaded isNative := by
    rw [instrumented native loaded] at isNative
    cases isNative
  slots native loaded isNative := by
    rw [instrumented native loaded] at isNative
    cases isNative

section Stores

variable {tables : IdTables} {modules : List CodeModule}

/-- The Tary stores of an instrumented module are those of its symbols. -/
theorem genTary_symbol {codeModule : CodeModule}
    (loaded : codeModule ∈ modules)
    (instrumented : codeModule.instrumented = true) {store : TableStore}
    (stored : store ∈ genTary tables codeModule) :
    ∃ target : TarySymbol modules, target.codeModule.instrumented = true ∧
      store.addr = target.addr ∧ target.id tables = some store.word := by
  rw [mem_genTary_instrumented instrumented] at stored
  rcases stored with ⟨sym, listed, id, found, rfl⟩ |
    ⟨sym, listed, id, found, rfl⟩ | ⟨sym, listed, id, found, rfl⟩
  · exact ⟨⟨codeModule, loaded, .function, sym, listed⟩, instrumented, rfl,
      found⟩
  · exact ⟨⟨codeModule, loaded, .directReturn, sym, listed⟩, instrumented, rfl,
      found⟩
  · exact ⟨⟨codeModule, loaded, .indirectReturn, sym, listed⟩, instrumented,
      rfl, found⟩

/-- Each symbol with an id has its store. -/
theorem exists_genTary {target : TarySymbol modules} {id : Nat}
    (instrumented : target.codeModule.instrumented = true)
    (found : target.id tables = some id) :
    ∃ store ∈ genTary tables target.codeModule,
      store.addr = target.addr ∧ store.word = id := by
  obtain ⟨codeModule, loaded, kind, sym, listed⟩ := target
  cases kind with
  | function =>
      exact ⟨_, (mem_genTary_instrumented instrumented).mpr
        (Or.inl ⟨sym, listed, id, found, rfl⟩), rfl, rfl⟩
  | directReturn =>
      exact ⟨_, (mem_genTary_instrumented instrumented).mpr
        (Or.inr (Or.inl ⟨sym, listed, id, found, rfl⟩)), rfl, rfl⟩
  | indirectReturn =>
      exact ⟨_, (mem_genTary_instrumented instrumented).mpr
        (Or.inr (Or.inr ⟨sym, listed, id, found, rfl⟩)), rfl, rfl⟩

/-- Each store of an update is a symbol's, a native module's or a branch's. -/
theorem tableUpdate_store
    {store : TableStore} (stored : store ∈ tableUpdate tables modules) :
    (∃ target : TarySymbol modules, target.codeModule.instrumented = true ∧
        store.addr = target.addr ∧ target.id tables = some store.word) ∨
      (∃ native ∈ modules, native.instrumented = false ∧
        native.Holds store.addr ∧ store = .native store.addr ∧
        store.addr % 8 = 0) ∨
      ∃ branch : Branch modules, store = .bary branch.sym.offset
        (baryId tables branch.sym) := by
  obtain ⟨codeModule, loaded, tary | bary⟩ := mem_tableUpdate.mp stored
  · cases flag : codeModule.instrumented with
    | true => exact Or.inl (genTary_symbol loaded flag tary)
    | false =>
        obtain ⟨index, below, rfl⟩ := (mem_genTary_native flag).mp tary
        have base := codeModule.baseAligned
        unfold pageSize at base
        refine Or.inr (Or.inl ⟨codeModule, loaded, flag, ⟨?_, ?_⟩, rfl, ?_⟩)
        · exact Nat.le_add_right _ _
        · simp only [TableStore.addr]
          omega
        · simp only [TableStore.addr]
          omega
  · obtain ⟨sym, listed, rfl⟩ := mem_genBary.mp bary
    exact Or.inr (Or.inr ⟨⟨codeModule, loaded, sym, listed⟩, rfl⟩)

/-- A symbol's word is aligned with its offset. -/
theorem AlignedSymbols.target_aligned (aligned : AlignedSymbols modules)
    (target : TarySymbol modules) : target.addr % 8 = 0 := by
  have base := target.codeModule.baseAligned
  have offset := aligned.taryAligned target
  rw [TarySymbol.addr]
  unfold pageSize at base
  omega

/-- The stores of an update are aligned. -/
theorem tableUpdate_aligned
    (aligned : AlignedSymbols modules)
    {store : TableStore} (stored : store ∈ tableUpdate tables modules) :
    store.addr % 8 = 0 := by
  rcases tableUpdate_store stored with
    ⟨target, _, addrIs, _⟩ | ⟨_, _, _, _, _, wordAligned⟩ | ⟨branch, rfl⟩
  · rw [addrIs]
    exact aligned.target_aligned target
  · exact wordAligned
  · exact aligned.baryAligned branch

/-- The stores of an update are apart from aligned words. -/
theorem tableUpdate_apart
    (aligned : AlignedSymbols modules) {query : Nat}
    (queryAligned : query % 8 = 0) {store : TableStore}
    (stored : store ∈ tableUpdate tables modules) : store.Apart query :=
  TableStore.apart_of_aligned (tableUpdate_aligned aligned stored) queryAligned

variable (slots : SlotsApart modules) (native : NativeApart modules)
  (fits : ∀ store ∈ tableUpdate tables modules, store.word < 2 ^ 64)
include slots native fits

/--
After an update the word at a symbol with an id is the id of a symbol at that
address, up to the activation bit.
-/
theorem taryWord_of_addr
    {target : TarySymbol modules} {id : Nat}
    (instrumented : target.codeModule.instrumented = true)
    (found : target.id tables = some id) (state : TableState) :
    ∃ (other : TarySymbol modules) (otherId : Nat),
      other.addr = target.addr ∧ other.id tables = some otherId ∧
      ((runStores (tableUpdate tables modules) state).table.load64
          target.addr = otherId ∨
        (runStores (tableUpdate tables modules) state).table.load64
          target.addr = deactivate otherId) := by
  refine load64_runStores
    (motive := fun word => ∃ (other : TarySymbol modules) (otherId : Nat),
      other.addr = target.addr ∧ other.id tables = some otherId ∧
        (word = otherId ∨ word = deactivate otherId))
    (fun store => tableUpdate_apart slots.toAlignedSymbols
      (slots.target_aligned target)) ?_ ?_
  · obtain ⟨store, stored, addrIs, _⟩ := exists_genTary instrumented found
    exact ⟨store, mem_tableUpdate.mpr
      ⟨target.codeModule, target.loaded, Or.inl stored⟩, addrIs⟩
  · intro store stored addrIs current
    rcases tableUpdate_store stored with
      ⟨other, _, otherAddr, otherId⟩ | ⟨module, loaded, isNative, holds, _⟩ |
        ⟨branch, rfl⟩
    · refine ⟨other, store.word, otherAddr.symm.trans addrIs, otherId, ?_⟩
      rw [← addrIs]
      exact (TableStore.load64_exec current (fits store stored)).imp_right
        And.left
    · rw [addrIs] at holds
      exact (native.targets module loaded isNative target instrumented
        holds).elim
    · exact (slots.apart branch target addrIs).elim

/-- After an update a Bary word is the id that `gen_bary` picked. -/
theorem baryWord (branch : Branch modules) (state : TableState) :
    (runStores (tableUpdate tables modules) state).table.load64
      branch.sym.offset = baryId tables branch.sym := by
  have own : TableStore.bary branch.sym.offset (baryId tables branch.sym) ∈
      tableUpdate tables modules :=
    mem_tableUpdate.mpr ⟨branch.codeModule, branch.loaded,
      Or.inr (mem_genBary.mpr ⟨branch.sym, branch.listed, rfl⟩)⟩
  refine load64_runStores (motive := fun word => word = baryId tables branch.sym)
    (fun store => tableUpdate_apart slots.toAlignedSymbols
      (slots.baryAligned branch)) ⟨_, own, rfl⟩ ?_
  intro store stored addrIs current
  rcases tableUpdate_store stored with
    ⟨target, _, targetAddr, _⟩ | ⟨module, loaded, isNative, holds, _⟩ |
      ⟨other, rfl⟩
  · exact (slots.apart branch target (addrIs.symm.trans targetAddr)).elim
  · rw [addrIs] at holds
    exact (native.slots module loaded isNative branch holds).elim
  · have sameName := slots.barySeparate other branch addrIs
    have wordIs : baryId tables other.sym = baryId tables branch.sym := by
      simp only [baryId, sameName]
    rw [← addrIs, ← wordIs]
    exact TableStore.load64_exec_bary current (fits _ stored)

omit fits in
/-- After an update the words of a native module are the marker. -/
theorem nativeWord_of_holds
    {codeModule : CodeModule} (loaded : codeModule ∈ modules)
    (isNative : codeModule.instrumented = false) {addr : Nat}
    (holds : codeModule.Holds addr) (aligned : addr % 8 = 0)
    (state : TableState) :
    (runStores (tableUpdate tables modules) state).table.load64 addr =
      nativeWord := by
  refine load64_runStores (motive := fun word => word = nativeWord)
    (fun store => tableUpdate_apart slots.toAlignedSymbols aligned) ?_ ?_
  · have base := codeModule.baseAligned
    have size := codeModule.sizeAligned
    unfold pageSize at base size
    obtain ⟨above, below⟩ := holds
    refine ⟨.native addr, mem_tableUpdate.mpr ⟨codeModule, loaded,
      Or.inl ((mem_genTary_native isNative).mpr
        ⟨(addr - codeModule.baseAddr) / 8, by omega, ?_⟩)⟩, rfl⟩
    rw [show codeModule.baseAddr + 8 * ((addr - codeModule.baseAddr) / 8) =
      addr by omega]
  · intro store stored addrIs current
    rcases tableUpdate_store stored with
      ⟨target, instrumented, targetAddr, _⟩ | ⟨_, _, _, _, storeIs, _⟩ |
        ⟨branch, rfl⟩
    · rw [← addrIs, targetAddr] at holds
      exact (native.targets codeModule loaded isNative target instrumented
        holds).elim
    · rw [storeIs, addrIs]
      exact load64_store64_same _ _ (by decide)
    · rw [← addrIs] at holds
      exact (native.slots codeModule loaded isNative branch holds).elim

end Stores

/-- After an update a Tary word is the symbol's id, up to the activation bit. -/
theorem taryWord
    {tables : IdTables} {modules : List CodeModule}
    (separate : SeparatePlaces modules) (native : NativeApart modules)
    (fits : ∀ store ∈ tableUpdate tables modules, store.word < 2 ^ 64)
    {target : TarySymbol modules} {id : Nat}
    (instrumented : target.codeModule.instrumented = true)
    (found : target.id tables = some id) (state : TableState) :
    (runStores (tableUpdate tables modules) state).table.load64 target.addr =
        id ∨
      (runStores (tableUpdate tables modules) state).table.load64 target.addr =
        deactivate id := by
  obtain ⟨other, otherId, sameAddr, otherFound, wordIs⟩ := taryWord_of_addr
    separate.toSlotsApart native fits instrumented found state
  have sameNode := separate.tarySeparate other target sameAddr
  have sameKind := (TaryKind.mark_inj sameNode).1
  have sameId : other.id tables = target.id tables := by
    rw [TarySymbol.id, TarySymbol.id, sameNode, sameKind]
  rw [otherFound, found] at sameId
  cases sameId
  exact wordIs

section Activation

/-- Filling the tables records sites under the keys that are there. -/
theorem mem_runStores_activation
    (stores : List TableStore) (state : TableState) (name : Name) :
    (name ∈ (runStores stores state).fatsInCode ↔ name ∈ state.fatsInCode) ∧
      (name ∈ (runStores stores state).vmtd ↔ name ∈ state.vmtd) := by
  refine runStores_invariant
    (motive := fun current =>
      (name ∈ current.fatsInCode ↔ name ∈ state.fatsInCode) ∧
        (name ∈ current.vmtd ↔ name ∈ state.vmtd))
    ?_ ⟨Iff.rfl, Iff.rfl⟩
  intro store _ current same
  have keyKept : ∀ (dict : LinkMap Name Nat) (key : Name) (addr : Nat),
      dictIn dict key = true →
        (name ∈ gAddDirectedEdge dict key addr ↔ name ∈ dict) := by
    intro dict key addr present
    rw [dictIn_iff] at present
    rw [gAddDirectedEdge, mem_link]
    constructor
    · rintro (rfl | old)
      · exact present
      · exact old
    · exact Or.inr
  cases store with
  | native addr => exact same
  | returnAddr addr activated id =>
      simp only [TableStore.exec]
      split <;> exact same
  | bary slot id => exact same
  | funcAddr addr key id =>
      simp only [TableStore.exec]
      split
      next =>
        split
        next present =>
          exact ⟨(keyKept _ _ _ present).trans same.1, same.2⟩
        next =>
          split
          next present =>
            exact ⟨same.1, (keyKept _ _ _ present).trans same.2⟩
          next => exact same
      next => exact same

/-- A store leaves its word active, whatever word it replaces. -/
def TableStore.Activates (state : TableState) : TableStore → Prop
  | .native _ => False
  | .funcAddr _ name _ => name ∉ state.fatsInCode ∧ name ∉ state.vmtd
  | .returnAddr _ activated _ => activated = true
  | .bary _ _ => True

/-- Bit 0 of a deactivated word is clear. -/
theorem deactivate_even {word : Nat} (small : word < 2 ^ 64) :
    deactivate word % 2 = 0 := by
  rw [deactivate, and_minusTwo small]
  omega

/-- The store of an id leaves an active word active, and activates others. -/
theorem odd_load64_exec
    (state : TableState) {store : TableStore}
    (notNative : ∀ addr, store ≠ .native addr)
    (odd : store.word % 2 = 1) (small : store.word < 2 ^ 64) :
    (store.exec state).table.load64 store.addr % 2 = 1 ↔
      state.table.load64 store.addr % 2 = 1 ∨ store.Activates state := by
  have smallMasked : deactivate store.word < 2 ^ 64 := by
    rw [deactivate, and_minusTwo small]
    omega
  have active : (state.table.store64 store.addr store.word).load64
      store.addr % 2 = 1 := by
    rw [load64_store64_same _ _ small]
    exact odd
  have inactive : (state.table.store64 store.addr
      (deactivate store.word)).load64 store.addr % 2 = 0 := by
    rw [load64_store64_same _ _ smallMasked]
    exact deactivate_even small
  cases store with
  | native addr => exact (notNative addr rfl).elim
  | bary slot id => exact iff_of_true active (Or.inr trivial)
  | returnAddr addr activated id =>
      simp only [TableStore.word, TableStore.addr] at active inactive
      simp only [TableStore.exec, TableStore.Activates, TableStore.addr]
      cases activated with
      | true => simp [active]
      | false =>
          by_cases clear : state.table.load64 addr % 2 = 0
          · simp [inactive, clear]
          · simp [active, Nat.mod_two_ne_zero.mp clear]
  | funcAddr addr name id =>
      simp only [TableStore.word, TableStore.addr] at active inactive
      simp only [TableStore.exec, TableStore.Activates, TableStore.addr]
      by_cases clear : state.table.load64 addr % 2 = 0
      · by_cases inCode : name ∈ state.fatsInCode
        · simp [inactive, clear, inCode, dictIn_iff.mpr inCode]
        · have notInCode : dictIn state.fatsInCode name = false := by
            rw [← Bool.not_eq_true, dictIn_iff]
            exact inCode
          by_cases inVmtd : name ∈ state.vmtd
          · simp [inactive, clear, inCode, notInCode, inVmtd,
              dictIn_iff.mpr inVmtd]
          · have notInVmtd : dictIn state.vmtd name = false := by
              rw [← Bool.not_eq_true, dictIn_iff]
              exact inVmtd
            simp [active, clear, inCode, notInCode, inVmtd, notInVmtd]
      · simp [active, Nat.mod_two_ne_zero.mp clear]

/-- After a pass of ids a word is active when it was or a store activated it. -/
theorem odd_load64_runStores
    {stores : List TableStore} {state : TableState} {query : Nat}
    (apart : ∀ store ∈ stores, store.Apart query)
    (ids : ∀ store ∈ stores, store.addr = query →
      (∀ addr, store ≠ .native addr) ∧ store.word % 2 = 1 ∧
        store.word < 2 ^ 64) :
    (runStores stores state).table.load64 query % 2 = 1 ↔
      state.table.load64 query % 2 = 1 ∨
        ∃ store ∈ stores, store.addr = query ∧ store.Activates state := by
  induction stores generalizing state with
  | nil => simp
  | cons store rest inductionHypothesis =>
      have sameKeys : ∀ later : TableStore,
          later.Activates (store.exec state) ↔ later.Activates state := by
        intro later
        have keys := fun name => mem_runStores_activation [store] state name
        cases later with
        | funcAddr addr name id =>
            exact and_congr (not_congr (keys name).1) (not_congr (keys name).2)
        | native addr => exact Iff.rfl
        | returnAddr addr activated id => exact Iff.rfl
        | bary slot id => exact Iff.rfl
      rw [runStores_cons, inductionHypothesis
        (fun later member => apart later (List.mem_cons_of_mem _ member))
        (fun later member => ids later (List.mem_cons_of_mem _ member)),
        List.exists_mem_cons_iff]
      simp only [sameKeys]
      rw [← or_assoc]
      apply or_congr_left
      by_cases here : store.addr = query
      · obtain ⟨notNative, odd, small⟩ := ids store (by simp) here
        rw [← here, odd_load64_exec state notNative odd small]
        simp
      · rw [TableStore.load64_exec_other state (apart store (by simp)) here]
        simp [here]

end Activation

section Generations

variable {attrs : UInt8} {runtime : Runtime} {cfg : CfgData}
  (facts : CfgFacts attrs runtime cfg)
include facts

/-- Every store of a generation writes a 64-bit word. -/
theorem CfgFacts.fits
    {store : TableStore}
    (stored : store ∈ tableUpdate cfg.tables runtime.modules) :
    store.word < 2 ^ 64 := by
  rcases tableUpdate_store stored with
    ⟨target, _, _, found⟩ | ⟨_, _, _, _, storeIs, _⟩ | ⟨branch, rfl⟩
  · exact (facts.assignment.taryId_isId target.kind found).lt
  · have markerFits : nativeWord < 2 ^ 64 := by decide
    rwa [storeIs]
  · exact facts.assignment.baryId_lt branch.sym

end Generations

end Mcfi
