import Mcfi.Markers

namespace Mcfi

open LinkMap ByteMem

/-!
# The tables during an update

An update stores one word after the other: the words of the new modules, then the
Tary words of the old ones, then their Bary words.  After any number of these
stores a slot of an old module has its old or its new id, and the new one only
when all Tary words are written; an active Tary word is an old or a new id.
-/

/-- The stores of an update before the branches of the old modules. -/
def taryPhase (tables : IdTables) (modules : List CodeModule) :
    List TableStore :=
  (modules.filter fun codeModule => !codeModule.cfggened).flatMap
      (fun codeModule => genTary tables codeModule ++ genBary tables codeModule) ++
    (modules.filter fun codeModule => codeModule.cfggened).flatMap
      (genTary tables)

/-- The stores of an update to the branches of the old modules. -/
def baryPhase (tables : IdTables) (modules : List CodeModule) :
    List TableStore :=
  (modules.filter fun codeModule => codeModule.cfggened).flatMap
    (genBary tables)

/-- The two phases of an update. -/
theorem tableUpdate_phases (tables : IdTables) (modules : List CodeModule) :
    tableUpdate tables modules =
      taryPhase tables modules ++ baryPhase tables modules :=
  rfl

/-- The table after some stores of an update. -/
def partialTable (cfg : CfgData) (runtime : Runtime) (done : Nat) : ByteMem :=
  (runStores ((tableUpdate cfg.tables runtime.modules).take done)
    ⟨runtime.table, cfg.fatsInCode, cfg.vmtd⟩).table

/-- The address lies in a module that `gen_tary` treats as native code. -/
def NativeAt (modules : List CodeModule) (addr : Nat) : Prop :=
  ∃ codeModule ∈ modules, codeModule.instrumented = false ∧
    codeModule.Holds addr

/--
The layout of the two tables: symbols on whole words outside native code, all
modules above the slots, and one name for each slot.
-/
structure TableLayout (modules : List CodeModule) : Prop where
  taryAligned : ∀ target : TarySymbol modules, target.sym.offset % 8 = 0
  notNative : ∀ target : TarySymbol modules,
    target.codeModule.instrumented = true → ¬ NativeAt modules target.addr
  high : ∀ codeModule ∈ modules, x64AbiBase ≤ codeModule.baseAddr
  low : ∀ branch : Branch modules, LowWord branch.sym.offset
  slotNames : ∀ first second : Branch modules,
    first.sym.offset = second.sym.offset → first.sym.name = second.sym.name

/--
In addition, reads between two Tary words see even words, and the marker of native
code is in native code only.
-/
structure CleanTary (runtime : Runtime) : Prop extends
    TableLayout runtime.modules where
  offStart : ∀ addr, x64AbiBase ≤ addr → addr % 8 ≠ 0 →
    runtime.table.load64 addr % 2 = 0
  native : ∀ addr, x64AbiBase ≤ addr →
    runtime.table.load64 addr % 256 = NPV → NativeAt runtime.modules addr

/-- The tables hold the ids of a CFG, and no stale ids. -/
structure Settled (cfg : CfgData) (runtime : Runtime) : Prop extends
    TableLayout runtime.modules where
  cfggened : runtime.cfggened = true
  bary : ∀ branch : Branch runtime.modules,
    branch.codeModule.cfggened = true →
      runtime.table.load64 branch.sym.offset = baryId cfg.tables branch.sym
  tary : ∀ addr, x64AbiBase ≤ addr → runtime.table.load64 addr % 2 = 1 →
    ∃ target : TarySymbol runtime.modules, target.addr = addr ∧
      target.id cfg.tables = some (runtime.table.load64 addr)
  native : ∀ addr, x64AbiBase ≤ addr →
    runtime.table.load64 addr % 256 = NPV → NativeAt runtime.modules addr

namespace TableLayout

variable {modules : List CodeModule} (layout : TableLayout modules)
include layout

/-- The symbols and slots lie on whole words. -/
theorem alignedSymbols : AlignedSymbols modules where
  taryAligned := layout.taryAligned
  baryAligned branch := (layout.low branch).aligned

/-- The Tary words lie above the slots. -/
theorem targetHigh (target : TarySymbol modules) :
    x64AbiBase ≤ target.addr := by
  have high := layout.high target.codeModule target.loaded
  rw [TarySymbol.addr]
  omega

/-- The slots lie apart from the Tary words. -/
theorem slotsApart : SlotsApart modules where
  toAlignedSymbols := layout.alignedSymbols
  barySeparate := layout.slotNames
  apart branch target := by
    have low := (layout.low branch).low
    have high := layout.targetHigh target
    omega

/-- Native code holds neither symbols of other modules nor slots. -/
theorem nativeApart : NativeApart modules where
  targets native loaded isNative target instrumented holds :=
    layout.notNative target instrumented ⟨native, loaded, isNative, holds⟩
  slots native loaded _ branch holds := by
    have low := (layout.low branch).low
    have high := (layout.high native loaded).trans holds.1
    omega

/-- A store above the slots, or the id of a branch. -/
theorem store_cases {tables : IdTables} {store : TableStore}
    (stored : store ∈ tableUpdate tables modules) :
    x64AbiBase ≤ store.addr ∨ ∃ branch : Branch modules,
      store = .bary branch.sym.offset (baryId tables branch.sym) := by
  rcases tableUpdate_store stored with
    ⟨target, _, addrIs, _⟩ | ⟨native, loaded, _, holds, _⟩ | branch
  · left
    rw [addrIs]
    exact layout.targetHigh target
  · exact Or.inl ((layout.high native loaded).trans holds.1)
  · exact Or.inr branch

end TableLayout

/-- A settled table is clean: active words are at symbols. -/
theorem Settled.cleanTary {cfg : CfgData} {runtime : Runtime}
    (settled : Settled cfg runtime) : CleanTary runtime where
  toTableLayout := settled.toTableLayout
  offStart addr high notStart := by
    by_contra odd
    obtain ⟨target, addrIs, _⟩ := settled.tary addr high (by omega)
    have aligned := settled.alignedSymbols.target_aligned target
    omega
  native := settled.native

section Slots

variable {tables : IdTables} {modules : List CodeModule}

/-- The slots that the first phase writes are those of new modules. -/
theorem mem_taryPhase_bary {slot id : Nat}
    (stored : TableStore.bary slot id ∈ taryPhase tables modules) :
    ∃ branch : Branch modules, branch.codeModule.cfggened = false ∧
      branch.sym.offset = slot := by
  have noTary : ∀ codeModule : CodeModule,
      TableStore.bary slot id ∉ genTary tables codeModule := by
    intro codeModule listed
    cases flag : codeModule.instrumented with
    | true =>
        rw [mem_genTary_instrumented flag] at listed
        simp at listed
    | false =>
        rw [mem_genTary_native flag] at listed
        simp at listed
  unfold taryPhase at stored
  rcases List.mem_append.mp stored with fresh | old
  · obtain ⟨codeModule, loaded, inModule⟩ := List.mem_flatMap.mp fresh
    obtain ⟨inList, notGenerated⟩ := List.mem_filter.mp loaded
    rcases List.mem_append.mp inModule with tary | bary
    · exact (noTary codeModule tary).elim
    · obtain ⟨sym, listed, same⟩ := mem_genBary.mp bary
      cases same
      exact ⟨⟨codeModule, inList, sym, listed⟩, by simpa using notGenerated,
        rfl⟩
  · obtain ⟨codeModule, _, tary⟩ := List.mem_flatMap.mp old
    exact (noTary codeModule tary).elim

/-- The second phase writes slots only. -/
theorem mem_baryPhase {store : TableStore}
    (stored : store ∈ baryPhase tables modules) :
    ∃ branch : Branch modules,
      store = .bary branch.sym.offset (baryId tables branch.sym) := by
  obtain ⟨codeModule, loaded, bary⟩ := List.mem_flatMap.mp stored
  obtain ⟨sym, listed, same⟩ := mem_genBary.mp bary
  exact ⟨⟨codeModule, (List.mem_filter.mp loaded).1, sym, listed⟩, same⟩

end Slots

section Updates

variable {attrs : UInt8} {runtime : Runtime} {new : CfgData}
  (layout : TableLayout runtime.modules)
include layout

/-- The slot of an old module keeps its word until all Tary words are written. -/
theorem load64_slot_early
    (branch : Branch runtime.modules)
    (own : ∀ other : Branch runtime.modules,
      other.sym.offset = branch.sym.offset →
        other.codeModule.cfggened = true)
    {done : Nat} (early : done ≤ (taryPhase new.tables runtime.modules).length) :
    (partialTable new runtime done).load64 branch.sym.offset =
      runtime.table.load64 branch.sym.offset := by
  have place := layout.low branch
  have stores : ∀ store ∈ (tableUpdate new.tables runtime.modules).take done,
      store.Apart branch.sym.offset ∧ store.addr ≠ branch.sym.offset := by
    intro store taken
    have stored := List.mem_of_mem_take taken
    rw [tableUpdate_phases, List.take_append_of_le_length early] at taken
    rcases layout.store_cases stored with high | ⟨other, rfl⟩
    · have low := place.low
      exact ⟨Or.inr (Or.inl (low.trans high)), by omega⟩
    · refine ⟨TableStore.apart_of_aligned (layout.low other).aligned
        place.aligned, fun same => ?_⟩
      obtain ⟨fresh, notGenerated, slotIs⟩ :=
        mem_taryPhase_bary (List.mem_of_mem_take taken)
      have generated := own fresh (slotIs.trans same)
      rw [notGenerated] at generated
      cases generated
  exact load64_runStores_other (fun store taken => (stores store taken).1)
    fun store taken => (stores store taken).2

/-- During an update a slot has its old word or its new id. -/
theorem load64_slot
    (facts : CfgFacts attrs runtime new) (branch : Branch runtime.modules)
    (done : Nat) :
    (partialTable new runtime done).load64 branch.sym.offset =
        runtime.table.load64 branch.sym.offset ∨
      (partialTable new runtime done).load64 branch.sym.offset =
        baryId new.tables branch.sym := by
  have place := layout.low branch
  refine runStores_invariant
    (motive := fun current =>
      current.table.load64 branch.sym.offset =
          runtime.table.load64 branch.sym.offset ∨
        current.table.load64 branch.sym.offset =
          baryId new.tables branch.sym) ?_ (Or.inl rfl)
  intro store taken current either
  have stored := List.mem_of_mem_take taken
  rcases layout.store_cases stored with high | ⟨other, rfl⟩
  · have low := place.low
    rw [TableStore.load64_exec_other current
      (Or.inr (Or.inl (low.trans high))) (by omega)]
    exact either
  · by_cases here : other.sym.offset = branch.sym.offset
    · right
      have sameName := layout.slotNames other branch here
      have sameId : baryId new.tables other.sym =
          baryId new.tables branch.sym := by
        simp only [baryId, sameName]
      rw [← here, TableStore.load64_exec_bary current
        (facts.assignment.baryId_lt other.sym), sameId]
    · have apart : (TableStore.bary other.sym.offset
          (baryId new.tables other.sym)).Apart branch.sym.offset :=
        TableStore.apart_of_aligned (layout.low other).aligned place.aligned
      rw [TableStore.load64_exec_other current apart here]
      exact either

/-- Once all Tary words are written they stay. -/
theorem load64_addr_late
    {addr : Nat} (high : x64AbiBase ≤ addr) {done : Nat}
    (late : (taryPhase new.tables runtime.modules).length ≤ done) :
    (partialTable new runtime done).load64 addr =
      (fillTables new runtime).table.load64 addr := by
  have split : fillTables new runtime =
      runStores ((tableUpdate new.tables runtime.modules).drop done)
        (runStores ((tableUpdate new.tables runtime.modules).take done)
          ⟨runtime.table, new.fatsInCode, new.vmtd⟩) := by
    rw [← runStores_append, List.take_append_drop]
    rfl
  have stores : ∀ store ∈ (tableUpdate new.tables runtime.modules).drop done,
      store.Apart addr ∧ store.addr ≠ addr := by
    intro store left
    rw [tableUpdate_phases, List.drop_append,
      List.drop_eq_nil_of_le late, List.nil_append] at left
    obtain ⟨branch, rfl⟩ := mem_baryPhase (List.mem_of_mem_drop left)
    have low := (layout.low branch).low
    refine ⟨Or.inr (Or.inr (low.trans high)), ?_⟩
    change branch.sym.offset ≠ addr
    omega
  rw [split]
  exact (load64_runStores_other (fun store left => (stores store left).1)
    fun store left => (stores store left).2).symm

end Updates

section Reads

variable {attrs : UInt8} {runtime : Runtime} {new : CfgData}
  (clean : CleanTary runtime) (facts : CfgFacts attrs runtime new)
  (notCompat : runtime.compatMode = false)

include facts notCompat in
/-- The ids of the targets are formatted. -/
private theorem formattedTarget
    {target : TarySymbol runtime.modules} {id : Nat}
    (found : target.id new.tables = some id) : FormattedId id := by
  have assignment := facts.assignment
  rw [notCompat] at assignment
  exact assignment.formatted.1 target.kind _ _ found

/--
What a Tary word read during an update can be: an active word is the old word or
the new id of a symbol there, an inactive word was inactive before, and the marker
of native code is in native code.
-/
structure TaryRead (new : CfgData) (runtime : Runtime) (addr word : Nat) :
    Prop where
  active : word % 2 = 1 → runtime.table.load64 addr = word ∨
    ∃ target : TarySymbol runtime.modules, target.addr = addr ∧
      target.id new.tables = some word
  inactive : word % 2 = 0 → word % 256 ≠ NPV →
    runtime.table.load64 addr % 2 = 0
  native : word % 256 = NPV → NativeAt runtime.modules addr

include clean facts notCompat

/-- A store at a Tary word keeps what a read of it can be. -/
private theorem taryRead_exec
    {addr : Nat} (high : x64AbiBase ≤ addr) {store : TableStore}
    (stored : store ∈ tableUpdate new.tables runtime.modules)
    (here : store.addr = addr) {current : TableState}
    (read : TaryRead new runtime addr (current.table.load64 addr)) :
    TaryRead new runtime addr ((store.exec current).table.load64 addr) := by
  have small := facts.fits stored
  rcases tableUpdate_store stored with
    ⟨target, instrumented, addrIs, found⟩ |
      ⟨native, loaded, isNative, holds, storeIs, _⟩ | ⟨branch, rfl⟩
  · have formatted := formattedTarget facts notCompat found
    have notNative := clean.notNative target instrumented
    rw [← addrIs, here] at notNative
    have noMarker : ∀ {word}, CleanWord word → word % 256 ≠ NPV := by
      intro word cleanWord isNative
      refine cleanWord.notMarker 0 (by decide) ?_
      rw [Nat.pow_zero, Nat.div_one]
      exact isMarker_of_native isNative
    rcases TableStore.load64_exec current small with wordIs | ⟨wordIs, even, _⟩
    · rw [← here, wordIs]
      have odd := formatted.odd
      exact ⟨fun _ => Or.inr ⟨target, addrIs.symm, found⟩,
        fun even => by omega,
        fun marker => (noMarker formatted.clean marker).elim⟩
    · rw [← here, wordIs]
      have inactive := deactivate_even small
      rw [here] at even ⊢
      refine ⟨fun odd => by omega, fun _ _ => ?_,
        fun marker => (noMarker formatted.clean_deactivate marker).elim⟩
      exact read.inactive even fun marker => notNative (read.native marker)
  · have wordIs : (store.exec current).table.load64 addr = nativeWord := by
      rw [← here, storeIs]
      exact load64_store64_same _ _ (by decide)
    rw [wordIs]
    refine ⟨fun odd => absurd odd (by decide),
      fun _ notMarker => absurd (by decide) notMarker, fun _ => ?_⟩
    exact ⟨native, loaded, isNative, here ▸ holds⟩
  · have low := (clean.low branch).low
    change branch.sym.offset = addr at here
    omega

/-- During an update a read between two words sees an even word. -/
private theorem read_offStart
    {addr : Nat} (high : x64AbiBase ≤ addr) (notStart : addr % 8 ≠ 0)
    (done : Nat) :
    (partialTable new runtime done addr).toNat % 2 = 0 ∧
      ((partialTable new runtime done addr).toNat = NPV →
        NativeAt runtime.modules addr) := by
  refine runStores_invariant
    (motive := fun current => (current.table addr).toNat % 2 = 0 ∧
      ((current.table addr).toNat = NPV → NativeAt runtime.modules addr))
    ?_ ?_
  · intro store taken current kept
    have stored := List.mem_of_mem_take taken
    have aligned := tableUpdate_aligned clean.alignedSymbols stored
    by_cases inside : store.addr ≤ addr ∧ addr < store.addr + 8
    · obtain ⟨k, below, positive, rfl⟩ :
          ∃ k, k < 8 ∧ 0 < k ∧ addr = store.addr + k :=
        ⟨addr - store.addr, by omega, by omega, by omega⟩
      have byteOf : ∀ word : Nat,
          (current.table.store64 store.addr word (store.addr + k)).toNat =
            word / 256 ^ k % 256 :=
        fun word => store64_byte _ _ word below
      rcases tableUpdate_store stored with
        ⟨target, _, _, found⟩ | ⟨native, loaded, isNative, holds, storeIs, _⟩ |
          ⟨branch, rfl⟩
      · have formatted := formattedTarget facts notCompat found
        have cleanByte : ∀ {word}, CleanWord word →
            (current.table.store64 store.addr word (store.addr + k)).toNat %
                2 = 0 ∧
              ((current.table.store64 store.addr word
                (store.addr + k)).toNat = NPV →
                NativeAt runtime.modules (store.addr + k)) := by
          intro word cleanWord
          rw [byteOf]
          exact ⟨cleanWord.evenAbove k positive below, fun marker =>
            (cleanWord.notMarker k below (isMarker_of_native marker)).elim⟩
        rcases TableStore.exec_table current store with
          tableIs | ⟨tableIs, _⟩
        · rw [tableIs]
          exact cleanByte formatted.clean
        · rw [tableIs]
          exact cleanByte formatted.clean_deactivate
      · have byteIs : ((store.exec current).table (store.addr + k)).toNat =
            NPV := by
          rw [storeIs]
          change (current.table.store64 store.addr nativeWord
            (store.addr + k)).toNat = NPV
          rw [byteOf]
          have bytes : ∀ k < 8, nativeWord / 256 ^ k % 256 = NPV := by decide
          exact bytes k below
        rw [byteIs]
        have base := native.baseAligned
        have size := native.sizeAligned
        obtain ⟨above, end_⟩ := holds
        unfold pageSize at base size
        exact ⟨by decide, fun _ => ⟨native, loaded, isNative,
          by omega, by omega⟩⟩
      · have low := (clean.low branch).low
        change x64AbiBase ≤ branch.sym.offset + k at high
        omega
    · rw [TableStore.exec_other current store (by omega)]
      exact kept
  · have byteIs : (runtime.table addr).toNat =
        runtime.table.load64 addr % 256 :=
      (load64_mod runtime.table addr).symm
    have even := clean.offStart addr high notStart
    have evenByte : (runtime.table addr).toNat % 2 = 0 := by omega
    exact ⟨evenByte, fun marker =>
      clean.native addr high (byteIs.symm.trans marker)⟩

/-- What every read of a Tary word can be, at every point of an update. -/
theorem taryRead
    {addr : Nat} (high : x64AbiBase ≤ addr) (done : Nat) :
    TaryRead new runtime addr
      ((partialTable new runtime done).load64 addr) := by
  by_cases aligned : addr % 8 = 0
  · refine runStores_invariant
      (motive := fun current =>
        TaryRead new runtime addr (current.table.load64 addr)) ?_ ?_
    · intro store taken current read
      have stored := List.mem_of_mem_take taken
      by_cases here : store.addr = addr
      · exact taryRead_exec clean facts notCompat high stored here read
      · rw [TableStore.load64_exec_other current
          (tableUpdate_apart clean.alignedSymbols aligned stored) here]
        exact read
    · exact ⟨fun _ => Or.inl rfl, fun even _ => even, clean.native addr high⟩
  · have start := clean.offStart addr high aligned
    obtain ⟨even, native⟩ :=
      read_offStart clean facts notCompat high aligned done
    have byteIs := load64_mod (partialTable new runtime done) addr
    exact ⟨fun odd => by omega, fun _ _ => start,
      fun marker => native (byteIs.symm.trans marker)⟩

end Reads

section Settling

/-- The layout of the tables does not depend on which modules are generated. -/
private theorem tableLayout_generated {modules : List CodeModule}
    (layout : TableLayout modules) :
    TableLayout (modules.map fun codeModule =>
      { codeModule with cfggened := true }) := by
  have targetOf : ∀ target : TarySymbol (modules.map fun codeModule =>
      { codeModule with cfggened := true }),
      ∃ old : TarySymbol modules, old.addr = target.addr ∧
        old.sym = target.sym ∧
        old.codeModule.instrumented = target.codeModule.instrumented := by
    rintro ⟨codeModule, loaded, kind, sym, listed⟩
    obtain ⟨old, oldLoaded, rfl⟩ := List.mem_map.mp loaded
    refine ⟨⟨old, oldLoaded, kind, sym, ?_⟩, rfl, rfl, rfl⟩
    cases kind <;> exact listed
  have branchOf : ∀ branch : Branch (modules.map fun codeModule =>
      { codeModule with cfggened := true }),
      ∃ old : Branch modules, old.sym = branch.sym := by
    rintro ⟨codeModule, loaded, sym, listed⟩
    obtain ⟨old, oldLoaded, rfl⟩ := List.mem_map.mp loaded
    exact ⟨⟨old, oldLoaded, sym, listed⟩, rfl⟩
  exact {
    taryAligned := fun target => by
      obtain ⟨old, _, symIs, _⟩ := targetOf target
      rw [← symIs]
      exact layout.taryAligned old
    notNative := fun target instrumented => by
      obtain ⟨old, addrIs, _, flagIs⟩ := targetOf target
      rw [← flagIs] at instrumented
      rintro ⟨native, loaded, isNative, holds⟩
      obtain ⟨oldNative, oldLoaded, rfl⟩ := List.mem_map.mp loaded
      rw [← addrIs] at holds
      exact layout.notNative old instrumented
        ⟨oldNative, oldLoaded, isNative, holds⟩
    high := fun codeModule loaded => by
      obtain ⟨old, oldLoaded, rfl⟩ := List.mem_map.mp loaded
      exact layout.high old oldLoaded
    low := fun branch => by
      obtain ⟨old, symIs⟩ := branchOf branch
      rw [← symIs]
      exact layout.low old
    slotNames := fun first second same => by
      obtain ⟨oldFirst, firstIs⟩ := branchOf first
      obtain ⟨oldSecond, secondIs⟩ := branchOf second
      rw [← firstIs, ← secondIs] at same ⊢
      exact layout.slotNames oldFirst oldSecond same }

/--
A generation that rewrites every active Tary word, and has no activations to catch
up on, settles the tables.
-/
theorem settled_genCfg
    {attrs : UInt8} {before after : Runtime} {new : CfgData}
    (computed : computeCfg attrs before = .ok new)
    (generated : genCfg attrs before = .ok after)
    (notCompat : before.compatMode = false) (clean : CleanTary before)
    (rewritten : ∀ addr, x64AbiBase ≤ addr →
      before.table.load64 addr % 2 = 1 →
        ∃ target : TarySymbol before.modules,
          target.codeModule.instrumented = true ∧ target.addr = addr ∧
            ∃ id, target.id new.tables = some id)
    (caughtUp : before.cfggened = true ∨ before.patchCompensate = ∅) :
    Settled new after := by
  obtain ⟨facts⟩ := computeCfg_facts computed
  obtain ⟨other, otherRuns, outcome⟩ := genCfg_result generated
  rw [computed] at otherRuns
  cases otherRuns
  have tableIs : after.table = (fillTables new before).table := by
    rw [outcome.tableIs, compensated]
    split
    next => rfl
    next first =>
      rw [caughtUp.resolve_left first]
      rfl
  have complete : (fillTables new before).table =
      partialTable new before
        (tableUpdate new.tables before.modules).length := by
    rw [partialTable, List.take_length]
    rfl
  have reads : ∀ addr, x64AbiBase ≤ addr →
      TaryRead new before addr (after.table.load64 addr) := by
    intro addr high
    rw [tableIs, complete]
    exact taryRead clean facts notCompat high _
  have fits : ∀ store ∈ tableUpdate new.tables before.modules,
      store.word < 2 ^ 64 := fun store => facts.fits
  -- a symbol of the old list is one of the new list, with the same id
  have targetIn : ∀ {addr word : Nat} {target : TarySymbol before.modules},
      target.addr = addr → target.id new.tables = some word →
        ∃ target : TarySymbol after.modules, target.addr = addr ∧
          target.id new.tables = some word := by
    rintro addr word ⟨codeModule, loaded, kind, sym, listed⟩ addrIs found
    refine ⟨⟨{ codeModule with cfggened := true }, ?_, kind, sym, ?_⟩,
      addrIs, found⟩
    · rw [outcome.modulesAre]
      exact List.mem_map.mpr ⟨codeModule, loaded, rfl⟩
    · cases kind <;> exact listed
  refine {
    toTableLayout := outcome.modulesAre ▸
      tableLayout_generated clean.toTableLayout
    cfggened := outcome.cfggenedIs
    bary := ?_
    tary := ?_
    native := ?_ }
  · rintro ⟨codeModule, loaded, sym, listed⟩ _
    rw [outcome.modulesAre] at loaded
    obtain ⟨old, oldLoaded, rfl⟩ := List.mem_map.mp loaded
    rw [tableIs]
    exact baryWord clean.slotsApart clean.nativeApart fits
      ⟨old, oldLoaded, sym, listed⟩ _
  · intro addr high odd
    rcases (reads addr high).active odd with oldWord | ⟨target, addrIs, found⟩
    · rw [← oldWord] at odd
      obtain ⟨target, instrumented, rfl, id, found⟩ := rewritten addr high odd
      rw [oldWord] at odd
      obtain ⟨later, laterId, laterAddr, laterFound, wordIs⟩ :=
        taryWord_of_addr clean.slotsApart clean.nativeApart fits instrumented
          found ⟨before.table, new.fatsInCode, new.vmtd⟩
      have small := (facts.assignment.taryId_isId later.kind laterFound).lt
      rw [tableIs] at odd ⊢
      rcases wordIs with active | inactive
      · rw [fillTables, active]
        exact targetIn laterAddr laterFound
      · have even := deactivate_even small
        rw [fillTables, inactive] at odd
        omega
    · exact targetIn addrIs found
  · intro addr high marker
    obtain ⟨native, loaded, isNative, holds⟩ :=
      (reads addr high).native marker
    refine ⟨{ native with cfggened := true }, ?_, isNative, holds⟩
    rw [outcome.modulesAre]
    exact List.mem_map.mpr ⟨native, loaded, rfl⟩

end Settling

end Mcfi
