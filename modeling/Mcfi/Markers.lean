import Mcfi.Check
import Mcfi.EnforcedCfg
import Mcfi.RuntimeCalls
import Mcfi.Sites

namespace Mcfi

open LinkMap ByteMem

/-!
# Marker bytes and ids

The bytes `LPV`, `NPV` and `DCV` mark landing pads, native code and instruction
boundaries.  The encoder keeps them out of the ids, and every byte of an id but
the first is even.  So a marker in the table is there because a call stored it,
and a word read across two entries starts with an even byte and is never an id.
-/

/-- Markers are even bytes. -/
theorem IsMarker.even {byte : Nat} (marker : IsMarker byte) : byte % 2 = 0 := by
  rcases marker with rfl | rfl | rfl <;> decide

/-- `NPV` is a marker. -/
theorem isMarker_of_native {byte : Nat} (isNative : byte = NPV) :
    IsMarker byte := by
  rw [isNative]
  decide

section Ids

/-- An id whose halves are both half ids. -/
def FormattedId (id : Nat) : Prop :=
  ∃ half mcfiVersion, HalfIdFormat half ∧ HalfIdFormat mcfiVersion ∧
    id = makeId half mcfiVersion

/-- A word without marker bytes, with even bytes above the first. -/
structure CleanWord (word : Nat) : Prop where
  fits : word < 2 ^ 64
  notMarker : ∀ k, k < 8 → ¬ IsMarker (word / 256 ^ k % 256)
  evenAbove : ∀ k, 0 < k → k < 8 → word / 256 ^ k % 256 % 2 = 0

/-- The bytes of two joined halves, with some bit 0. -/
private theorem cleanWord_of_halves
    {half mcfiVersion bit : Nat} (halfFormat : HalfIdFormat half)
    (versionFormat : HalfIdFormat mcfiVersion) (isBit : bit < 2) :
    CleanWord (half * 2 ^ 32 + mcfiVersion + bit) := by
  have halfFits := halfFormat.isFourBytes
  have versionFits := versionFormat.isFourBytes
  have even := versionFormat.fieldEven 0 (by decide)
  rw [Nat.pow_zero, Nat.div_one] at even
  have lowByte : (half * 2 ^ 32 + mcfiVersion + bit) % 256 =
      mcfiVersion % 256 + bit := by
    omega
  have versionByte : ∀ k, 0 < k → k < 4 →
      (half * 2 ^ 32 + mcfiVersion + bit) / 256 ^ k % 256 =
        mcfiVersion / 256 ^ k % 256 := by
    intro k positive below
    match k, positive, below with
    | 1, _, _ => omega
    | 2, _, _ => omega
    | 3, _, _ => omega
  have halfByte : ∀ k, k < 4 →
      (half * 2 ^ 32 + mcfiVersion + bit) / 256 ^ (k + 4) % 256 =
        half / 256 ^ k % 256 := by
    intro k below
    match k, below with
    | 0, _ => omega
    | 1, _ => omega
    | 2, _ => omega
    | 3, _ => omega
  refine ⟨by omega, ?_, ?_⟩
  · intro k below
    rcases Nat.eq_zero_or_pos k with rfl | positive
    · rw [Nat.pow_zero, Nat.div_one, lowByte]
      have notMarker := versionFormat.fieldNotMarker 0 (by decide)
      rw [Nat.pow_zero, Nat.div_one] at notMarker
      intro marker
      have markerEven := marker.even
      have noBit : bit = 0 := by omega
      rw [noBit, Nat.add_zero] at marker
      exact notMarker marker
    · by_cases low : k < 4
      · rw [versionByte k positive low]
        exact versionFormat.fieldNotMarker k low
      · have split : k = k - 4 + 4 := by omega
        rw [split, halfByte (k - 4) (by omega)]
        exact halfFormat.fieldNotMarker (k - 4) (by omega)
  · intro k positive below
    by_cases low : k < 4
    · rw [versionByte k positive low]
      exact versionFormat.fieldEven k low
    · have split : k = k - 4 + 4 := by omega
      rw [split, halfByte (k - 4) (by omega)]
      exact halfFormat.fieldEven (k - 4) (by omega)

namespace FormattedId

variable {id : Nat} (formatted : FormattedId id)
include formatted

/-- An active id has no marker bytes. -/
theorem clean : CleanWord id := by
  obtain ⟨half, mcfiVersion, halfFormat, versionFormat, rfl⟩ := formatted
  rw [makeId_eq versionFormat.version]
  exact cleanWord_of_halves halfFormat versionFormat (by decide)

/-- A deactivated id has no marker bytes either. -/
theorem clean_deactivate : CleanWord (deactivate id) := by
  obtain ⟨half, mcfiVersion, halfFormat, versionFormat, rfl⟩ := formatted
  have isId : IsId mcfiVersion (makeId half mcfiVersion) :=
    ⟨versionFormat.version, half, halfFormat.isFourBytes, rfl⟩
  rw [isId.deactivate_eq, makeId_eq versionFormat.version, Nat.add_sub_cancel]
  have words := cleanWord_of_halves halfFormat versionFormat
    (show 0 < 2 by decide)
  rwa [Nat.add_zero] at words

/-- Bit 0 of an active id is set. -/
theorem odd : id % 2 = 1 := by
  obtain ⟨half, mcfiVersion, _, versionFormat, rfl⟩ := formatted
  exact makeId_odd versionFormat.version

end FormattedId

/-- Outside compatibility mode the ids of a generation are formatted. -/
theorem IdAssignment.formatted
    {callgraph retgraph : LinkMap Nat Nat} {version : Nat} {tables : IdTables}
    (assignment : IdAssignment false callgraph retgraph version tables) :
    (∀ (kind : TaryKind) (key id : Nat),
      (kind.ids tables).find key = some id → FormattedId id) ∧
    ∀ icfsym, FormattedId (baryId tables icfsym) := by
  have ofHalf : ∀ number index,
      FormattedId (makeId (halfIdAt number index)
        (convertToMcfiHalfIdFormat version).1) :=
    fun number index => ⟨_, _, convert_format _, convert_format _, rfl⟩
  have callIds : ∀ key id, tables.callids.find key = some id →
      FormattedId id := by
    intro key id found
    obtain ⟨index, _, rfl⟩ := assignment.callid_index rfl found
    exact ofHalf _ _
  have retIds : ∀ key id, tables.retids.find key = some id →
      FormattedId id := by
    intro key id found
    obtain ⟨index, _, rfl⟩ := assignment.retid_index rfl found
    exact ofHalf _ _
  refine ⟨?_, ?_⟩
  · intro kind key id found
    cases kind with
    | function => exact callIds key id found
    | directReturn => exact retIds key id found
    | indirectReturn => exact retIds key id found
  · intro icfsym
    unfold baryId dictFind
    split
    next id found => exact callIds _ id found
    next =>
      split
      next id found => exact retIds _ id found
      next =>
        rw [assignment.othersAre]
        exact ofHalf _ _

end Ids

section Contents

/--
What every reachable content of the table has: markers come from the calls that
store them, and bytes off the words' starts are even and not `NPV`.
-/
structure CleanTable (history : Nat × Nat → Prop) (table : ByteMem) : Prop where
  stored : ∀ addr, IsMarker (table addr).toNat →
    history (addr, (table addr).toNat)
  offStart : ∀ addr, addr % 8 ≠ 0 →
    (table addr).toNat % 2 = 0 ∧ (table addr).toNat ≠ NPV

variable {history : Nat × Nat → Prop} {table : ByteMem}

/-- Storing a word without markers keeps a table clean. -/
theorem CleanTable.store64
    (clean : CleanTable history table) {addr word : Nat}
    (aligned : addr % 8 = 0) (cleanWord : CleanWord word) :
    CleanTable history (table.store64 addr word) := by
  have byteOf : ∀ query, addr ≤ query → query < addr + 8 →
      (table.store64 addr word query).toNat =
        word / 256 ^ (query - addr) % 256 := by
    intro query above below
    have byte := store64_byte table addr word
      (show query - addr < 8 by omega)
    rwa [show addr + (query - addr) = query by omega] at byte
  refine ⟨?_, ?_⟩
  · intro query marker
    by_cases inside : addr ≤ query ∧ query < addr + 8
    · rw [byteOf query inside.1 inside.2] at marker
      exact (cleanWord.notMarker _ (by omega) marker).elim
    · have kept : table.store64 addr word query = table query :=
        store64_other table (by omega)
      rw [kept] at marker ⊢
      exact clean.stored query marker
  · intro query notStart
    by_cases inside : addr ≤ query ∧ query < addr + 8
    · rw [byteOf query inside.1 inside.2]
      refine ⟨cleanWord.evenAbove _ (by omega) (by omega), ?_⟩
      intro isNative
      exact cleanWord.notMarker _ (show query - addr < 8 by omega)
        (isMarker_of_native isNative)
    · have kept : table.store64 addr word query = table query :=
        store64_other table (by omega)
      rw [kept]
      exact clean.offStart query notStart

/-- Setting bit 0 of an aligned word keeps a table clean. -/
theorem CleanTable.setBit0
    (clean : CleanTable history table) {addr : Nat} (aligned : addr % 8 = 0) :
    CleanTable history (setBit0 table addr) := by
  have small : table.load64 addr ||| 1 < 2 ^ 64 :=
    Nat.or_lt_two_pow (load64_lt table addr) (by decide)
  have first : (Mcfi.setBit0 table addr addr).toNat % 2 = 1 := by
    have byte := store64_byte table addr (table.load64 addr ||| 1)
      (show 0 < 8 by decide)
    rw [Nat.add_zero, Nat.pow_zero, Nat.div_one] at byte
    rw [Mcfi.setBit0, byte, or_one]
    omega
  have others : ∀ query, query ≠ addr →
      Mcfi.setBit0 table addr query = table query := by
    intro query different
    by_cases inside : addr ≤ query ∧ query < addr + 8
    · apply UInt8.toNat_inj.mp
      have later : addr + (query - addr) = query := by omega
      have byte := store64_byte table addr (table.load64 addr ||| 1)
        (show query - addr < 8 by omega)
      have oldByte := byte_eq_load table addr 8
        (show query - addr < 8 by omega)
      rw [later] at byte oldByte
      have shifted : ∀ word k : Nat, (word ||| 1) / 256 ^ (k + 1) =
          word / 256 ^ (k + 1) := by
        intro word k
        rw [or_one, Nat.pow_succ', ← Nat.div_div_eq_div_mul,
          ← Nat.div_div_eq_div_mul]
        congr 1
        omega
      obtain ⟨k, above⟩ : ∃ k, query - addr = k + 1 :=
        ⟨query - addr - 1, by omega⟩
      rw [Mcfi.setBit0, byte, oldByte, above, shifted]
      rfl
    · exact store64_other table (by omega)
  refine ⟨?_, ?_⟩
  · intro query marker
    by_cases here : query = addr
    · subst here
      have even := marker.even
      omega
    · rw [others query here] at marker ⊢
      exact clean.stored query marker
  · intro query notStart
    have different : query ≠ addr := fun here => notStart (here ▸ aligned)
    rw [others query different]
    exact clean.offStart query notStart

/-- Activating aligned words keeps a table clean. -/
theorem CleanTable.activate
    {sites : List Nat} (aligned : ∀ site ∈ sites, site % 8 = 0)
    (clean : CleanTable history table) :
    CleanTable history (sites.foldl activate table) := by
  induction sites generalizing table with
  | nil => exact clean
  | cons site rest inductionHypothesis =>
      apply inductionHypothesis
        (fun later member => aligned later (List.mem_cons_of_mem _ member))
      unfold Mcfi.activate
      split
      next => exact clean.setBit0 (aligned site (by simp))
      next => exact clean

/-- More stored markers do no harm. -/
theorem CleanTable.weaken
    {later : Nat × Nat → Prop} (clean : CleanTable history table)
    (grows : ∀ fact, history fact → later fact) :
    CleanTable later table :=
  ⟨fun addr marker => grows _ (clean.stored addr marker), clean.offStart⟩

/-- Storing one marker other than `NPV`, or zero, keeps a table clean. -/
theorem CleanTable.storeByte
    (clean : CleanTable history table) {addr : Nat} {byte : UInt8}
    (even : byte.toNat % 2 = 0) (notNative : byte.toNat ≠ NPV)
    (recorded : IsMarker byte.toNat → history (addr, byte.toNat)) :
    CleanTable history (table.storeByte addr byte) := by
  refine ⟨?_, ?_⟩
  · intro query marker
    unfold ByteMem.storeByte at marker ⊢
    split at marker
    next here =>
      rw [if_pos here]
      exact here ▸ recorded marker
    next elsewhere =>
      rw [if_neg elsewhere]
      exact clean.stored query marker
  · intro query notStart
    unfold ByteMem.storeByte
    split
    next => exact ⟨even, notNative⟩
    next => exact clean.offStart query notStart

/-- A read off the words' starts is never an id, and a check reports it. -/
theorem CleanTable.reports
    (clean : CleanTable history table) {addr bid : Nat}
    (notStart : addr % 8 ≠ 0) (odd : bid % 2 = 1) :
    table.load64 addr % 256 ≠ NPV ∧ table.load64 addr % 2 = 0 ∧
      table.load64 addr ≠ bid ∧ idCmp bid (table.load64 addr) = .report := by
  obtain ⟨even, notNative⟩ := clean.offStart addr notStart
  have lowByte := load64_mod table addr
  have notMarker : table.load64 addr % 256 ≠ NPV := by
    rw [lowByte]
    exact notNative
  have clear : table.load64 addr % 2 = 0 := by omega
  have different : table.load64 addr ≠ bid := by
    intro same
    rw [same] at clear
    omega
  refine ⟨notMarker, clear, different, ?_⟩
  rw [idCmp, if_neg (Ne.symm different), interopCheck, if_neg notMarker,
    idValidityCheck, if_pos clear]

end Contents

section Calls

/-- The modules of a generation that stores ids only. -/
structure TaryReady (runtime : Runtime) : Prop where
  notCompat : runtime.compatMode = false
  instrumented : ∀ codeModule ∈ runtime.modules,
    codeModule.instrumented = true
  aligned : AlignedSymbols runtime.modules

/-- What the fills of the tables and the activations preserve. -/
structure TaryInvariant (history : Nat × Nat → Prop) (runtime : Runtime) :
    Prop where
  clean : CleanTable history runtime.table
  codeSites : SitesIn (fun site => site % 8 = 0) runtime.fatsInCode
  methodSites : SitesIn (fun site => site % 8 = 0) runtime.vmtd

/-- One store of a pass of ids. -/
private theorem cleanTable_exec
    {history : Nat × Nat → Prop} {state : TableState} {store : TableStore}
    (aligned : store.addr % 8 = 0) (formatted : FormattedId store.word)
    (clean : CleanTable history state.table) :
    CleanTable history (store.exec state).table := by
  rcases TableStore.exec_table state store with tableIs | ⟨tableIs, _⟩
  · rw [tableIs]
    exact clean.store64 aligned formatted.clean
  · rw [tableIs]
    exact clean.store64 aligned formatted.clean_deactivate

/-- The stores of a generation that stores ids only. -/
private theorem cleanTable_pass
    {history : Nat × Nat → Prop} {attrs : UInt8} {runtime : Runtime}
    {cfg : CfgData} (ready : TaryReady runtime)
    (facts : CfgFacts attrs runtime cfg)
    {stores : List TableStore}
    (part : ∀ store ∈ stores, store ∈ tableUpdate cfg.tables runtime.modules)
    {state : TableState} (clean : CleanTable history state.table) :
    CleanTable history (runStores stores state).table := by
  refine runStores_invariant
    (motive := fun current => CleanTable history current.table) ?_ clean
  intro store listed current currentClean
  have stored := part store listed
  have assignment := facts.assignment
  rw [ready.notCompat] at assignment
  refine cleanTable_exec (tableUpdate_aligned ready.aligned stored) ?_
    currentClean
  rcases tableUpdate_store stored with
    ⟨target, _, _, found⟩ | ⟨native, loaded, isNative, _⟩ | ⟨branch, rfl⟩
  · exact assignment.formatted.1 target.kind _ _ found
  · rw [ready.instrumented native loaded] at isNative
    cases isNative
  · exact assignment.formatted.2 branch.sym

/-- A generation that stores ids only. -/
private theorem taryInvariant_genCfg
    {history : Nat × Nat → Prop} {attrs : UInt8} {before after : Runtime}
    (ready : TaryReady before) (clean : CleanTable history before.table)
    (returned : genCfg attrs before = .ok after) :
    TaryInvariant history after := by
  obtain ⟨cfg, computed, outcome⟩ := genCfg_result returned
  obtain ⟨facts⟩ := computeCfg_facts computed
  have filled : CleanTable history (fillTables cfg before).table :=
    cleanTable_pass ready facts (fun _ stored => stored) clean
  have activations : ∀ (entries : List WordAddr) (table : ByteMem),
      CleanTable history table →
        CleanTable history (entries.foldl
          (fun table entry => setBit0 table entry.addr) table) := by
    intro entries
    induction entries with
    | nil => exact fun _ unchanged => unchanged
    | cons entry rest inductionHypothesis =>
        exact fun table start =>
          inductionHypothesis _ (start.setBit0 entry.aligned)
  have sites : SitesIn (fun site => site % 8 = 0) after.fatsInCode ∧
      SitesIn (fun site => site % 8 = 0) after.vmtd :=
    sitesIn_genCfg (fun target _ => ready.aligned.target_aligned target)
      returned
  refine ⟨?_, sites.1, sites.2⟩
  rw [outcome.tableIs, compensated]
  split
  next => exact filled
  next => exact activations _ _ filled

/--
The markers that a call stores: a landing pad of the entered function, a
boundary in a code heap.
-/
def Call.StoresMarker (before : Runtime) (addr marker : Nat) : Call → Prop
  | .patchEntry patchpoint =>
      marker = LPV ∧ ∃ codeModule key,
        findModule before.modules patchpoint = some codeModule ∧
        Linked codeModule.flp (patchpoint - codeModule.baseAddr) key ∧
        addr = codeModule.baseAddr + key
  | .fill _ _ _ _ _ =>
      marker = DCV ∧ ∃ heap ∈ before.modules, heap.codeHeap = true ∧
        heap.Holds addr
  | _ => False

/-- The calls that fill the tables with ids, activate targets or mark bytes. -/
def Call.FillsTary (before : Runtime) : Call → Prop
  | .generate _ => TaryReady before
  | .takeAddress _ funcAddr => ∀ modules names,
      takeAddrAndGenCfg.locate before.modules funcAddr =
        .ok (modules, some names) →
      TaryReady { before with modules := modules }
  | .register _ _ => False
  | _ => True

/-- Boundary bytes inside a heap. -/
private theorem cleanTable_storeBytes
    {history : Nat × Nat → Prop} {table : ByteMem}
    (clean : CleanTable history table) {dst length : Nat}
    {boundaries : List Nat}
    (recorded : ∀ addr, dst ≤ addr → addr < dst + length →
      history (addr, DCV)) :
    CleanTable history
      (table.storeBytes dst (boundaryBytes length boundaries)) := by
  have byteOf : ∀ query, dst ≤ query → query < dst + length →
      table.storeBytes dst (boundaryBytes length boundaries) query =
        if query - dst ∈ boundaries then UInt8.ofNat DCV else 0 := by
    intro query above below
    have inside : query - dst < length := by omega
    simp [storeBytes, boundaryBytes, above, inside]
  have outside : ∀ query, ¬ (dst ≤ query ∧ query < dst + length) →
      table.storeBytes dst (boundaryBytes length boundaries) query =
        table query := by
    intro query apart
    unfold storeBytes
    split
    next above =>
      have beyond : length ≤ query - dst := by omega
      simp [boundaryBytes, beyond]
    next => rfl
  refine ⟨?_, ?_⟩
  · intro query marker
    by_cases inside : dst ≤ query ∧ query < dst + length
    · rw [byteOf query inside.1 inside.2] at marker ⊢
      split at marker
      next isBoundary =>
        rw [if_pos isBoundary]
        exact recorded query inside.1 inside.2
      next => exact absurd marker (by decide)
    · rw [outside query inside] at marker ⊢
      exact clean.stored query marker
  · intro query notStart
    by_cases inside : dst ≤ query ∧ query < dst + length
    · rw [byteOf query inside.1 inside.2]
      split
      next => decide
      next => decide
    · rw [outside query inside]
      exact clean.offStart query notStart

/-- Landing pads. -/
private theorem cleanTable_pads
    {history : Nat × Nat → Prop} (pads : List Nat) {table : ByteMem}
    (clean : CleanTable history table)
    (recorded : ∀ pad ∈ pads, history (pad, LPV)) :
    CleanTable history (pads.foldl
      (fun table pad => table.storeByte pad (UInt8.ofNat LPV)) table) := by
  induction pads generalizing table with
  | nil => exact clean
  | cons pad rest inductionHypothesis =>
      exact inductionHypothesis
        (clean.storeByte (by decide) (by decide)
          (fun _ => recorded pad (by simp)))
        (fun later listed => recorded later (List.mem_cons_of_mem _ listed))

/-- What each permitted call preserves, with the markers it stores. -/
theorem taryInvariant_call
    {history : Nat × Nat → Prop} {call : Call} {before after : Runtime}
    (permitted : call.FillsTary before)
    (returned : call.run before = .ok after)
    (records : ∀ addr marker, call.StoresMarker before addr marker →
      history (addr, marker))
    (invariant : TaryInvariant history before) :
    TaryInvariant history after := by
  cases call with
  | load parsed =>
      cases returned
      exact ⟨invariant.clean, invariant.codeSites, invariant.methodSites⟩
  | generate attrs =>
      exact taryInvariant_genCfg permitted invariant.clean returned
  | takeAddress attrs funcAddr =>
      simp only [Call.run, takeAddrAndGenCfg] at returned
      rw [bind_eq_ok] at returned
      obtain ⟨⟨modules, names⟩, searched, returned⟩ := returned
      cases names with
      | none => cases returned
      | some names =>
          exact taryInvariant_genCfg (permitted modules names searched)
            invariant.clean returned
  | patchAt patchpoint =>
      obtain ⟨sites, fatsInCode, image, rfl, recorded, fewer⟩ :=
        patchAt_cases returned
      refine ⟨invariant.clean.activate ?_, ?_, invariant.methodSites⟩
      · intro site listed
        obtain ⟨name, linked⟩ := recorded site listed
        exact invariant.codeSites name site linked
      · exact fun name site linked =>
          invariant.codeSites name site (fewer name site linked)
  | patchEntry patchpoint =>
      obtain ⟨codeModule, sites, pads, vtable, image, found, _, padsAre, rfl,
        recorded⟩ := patchEntry_cases returned
      refine ⟨cleanTable_pads pads (invariant.clean.activate ?_) ?_,
        invariant.codeSites, invariant.methodSites⟩
      · intro site listed
        obtain ⟨name, linked⟩ := recorded site listed
        exact invariant.methodSites name site linked
      · intro pad listed
        rw [padsAre, List.mem_map] at listed
        obtain ⟨key, target, rfl⟩ := listed
        exact records _ _ ⟨rfl, codeModule, key, found,
          mem_targets.mp target, rfl⟩
  | patchCall patchpoint =>
      rcases patchCall_cases returned with
        rfl | ⟨target, table, _, _, _, tableIs, rfl⟩
      · exact invariant
      · refine ⟨?_, invariant.codeSites, invariant.methodSites⟩
        rcases tableIs with rfl | rfl
        · exact invariant.clean
        · exact invariant.clean.setBit0 target.aligned
  | createHeap ph page size verifier =>
      obtain ⟨heap, rfl, _⟩ := createCodeHeap_ok returned
      exact ⟨invariant.clean, invariant.codeSites, invariant.methodSites⟩
  | fill bufferAddr handle dst src extra =>
      obtain ⟨index, heap, located, isHeap, step⟩ :=
        codeHeapFill_cases returned
      have recorded : ∀ start length, heap.baseAddr ≤ start →
          start + length ≤ heap.baseAddr + heap.sz →
          ∀ addr, start ≤ addr → addr < start + length →
            history (addr, DCV) := by
        intro start length above below addr inside outside
        refine records addr DCV ⟨rfl, heap, List.mem_of_getElem? located,
          isHeap, ?_, ?_⟩
        · omega
        · omega
      cases step with
      | data image =>
          exact ⟨invariant.clean, invariant.codeSites,
            invariant.methodSites⟩
      | replaced image start length boundaries inside =>
          exact ⟨cleanTable_storeBytes invariant.clean
            (recorded start length inside.1 inside.2),
            invariant.codeSites, invariant.methodSites⟩
      | installed image bitmap start length boundaries inside =>
          exact ⟨cleanTable_storeBytes invariant.clean
            (recorded start length inside.1 inside.2),
            invariant.codeSites, invariant.methodSites⟩
  | register handle metadata => exact permitted.elim

/--
A run of such calls from the start, with its history: the addresses and markers
for which some call of the run stores that marker, and left it where another byte
had been.
-/
def MarkedRun : (Nat × Nat → Prop) → Runtime → Prop :=
  HistoryRun (Admitted fun before call => call.FillsTary before)
    (fun before call after fact =>
      call.StoresMarker before fact.1 fact.2 ∧
        (before.table fact.1).toNat ≠ fact.2 ∧
        (after.table fact.1).toNat = fact.2)
    Runtime.boot

/-- A content of the table: after a call of a run, or within a generation. -/
inductive TaryContent : (Nat × Nat → Prop) → ByteMem → Prop where
  | settled
      {history : Nat × Nat → Prop} {runtime : Runtime}
      (run : MarkedRun history runtime) :
      TaryContent history runtime.table
  | filling
      {history : Nat × Nat → Prop} {attrs : UInt8} {runtime : Runtime}
      {cfg : CfgData} {stores : List TableStore}
      (run : MarkedRun history runtime) (ready : TaryReady runtime)
      (computed : computeCfg attrs runtime = .ok cfg)
      (part : stores <+: tableUpdate cfg.tables runtime.modules) :
      TaryContent history
        (runStores stores ⟨runtime.table, cfg.fatsInCode, cfg.vmtd⟩).table

/-- The table before anything is loaded has no markers. -/
private theorem taryInvariant_boot (history : Nat × Nat → Prop) :
    TaryInvariant history Runtime.boot := by
  refine ⟨⟨?_, ?_⟩, ?_, ?_⟩
  · intro addr marker
    exact absurd marker (by decide : ¬ IsMarker (0 : UInt8).toNat)
  · intro addr _
    exact (by decide : (0 : UInt8).toNat % 2 = 0 ∧ (0 : UInt8).toNat ≠ NPV)
  · exact NoSites.sitesIn not_linked_empty _
  · exact NoSites.sitesIn not_linked_empty _

/-- Every run keeps the invariant. -/
theorem MarkedRun.invariant
    {history : Nat × Nat → Prop} {runtime : Runtime}
    (run : MarkedRun history runtime) :
    TaryInvariant history runtime := by
  -- relative to the state before a call, a marker is old or the call's
  have stepped : ∀ {before call after},
      TaryInvariant (fun _ => True) before →
        Admitted (fun before call => call.FillsTary before) before call after →
          TaryInvariant (fun fact => (before.table fact.1).toNat = fact.2 ∨
            call.StoresMarker before fact.1 fact.2) after := by
    intro before call after invariant step
    exact taryInvariant_call step.admitted step.returned
      (fun addr marker stores => Or.inr stores)
      ⟨⟨fun addr _ => Or.inl rfl, invariant.clean.offStart⟩,
        invariant.codeSites, invariant.methodSites⟩
  have preserved : ∀ {before call after},
      TaryInvariant (fun _ => True) before →
        Admitted (fun before call => call.FillsTary before) before call after →
          TaryInvariant (fun _ => True) after := by
    intro before call after invariant step
    have next := stepped invariant step
    exact ⟨next.clean.weaken fun _ _ => trivial, next.codeSites,
      next.methodSites⟩
  have settled := HistoryRun.invariant run (taryInvariant_boot _) preserved
  refine ⟨⟨?_, settled.clean.offStart⟩, settled.codeSites,
    settled.methodSites⟩
  intro addr marker
  refine HistoryRun.holds_recorded (motive := TaryInvariant fun _ => True)
    (fun current fact => IsMarker fact.2 ∧
      (current.table fact.1).toNat = fact.2)
    run (taryInvariant_boot _) preserved ?_ ?_
    (addr, (runtime.table addr).toNat) ⟨marker, rfl⟩
  · rintro ⟨query, byte⟩ ⟨isMarker, isZero⟩
    change (0 : UInt8).toNat = byte at isZero
    rw [← isZero] at isMarker
    exact absurd isMarker (by decide : ¬ IsMarker (0 : UInt8).toNat)
  · rintro before call after ⟨query, byte⟩ invariant step ⟨isMarker, holds⟩
    by_cases old : (before.table query).toNat = byte
    · exact Or.inl ⟨isMarker, old⟩
    · right
      have next := (stepped invariant step).clean.stored query
        (holds.symm ▸ isMarker)
      rw [holds] at next
      exact ⟨next.resolve_left old, old, holds⟩

/-- Every reachable content of the table is clean. -/
theorem TaryContent.clean
    {history : Nat × Nat → Prop} {table : ByteMem}
    (content : TaryContent history table) : CleanTable history table := by
  cases content with
  | settled run => exact run.invariant.clean
  | @filling attrs runtime cfg stores run ready computed part =>
      obtain ⟨facts⟩ := computeCfg_facts computed
      exact cleanTable_pass ready facts
        (fun store listed => part.subset listed) run.invariant.clean

end Calls

/-- The ids of a generation, as the tables hold them. -/
def IsTableId (id : Nat) : Prop :=
  ∃ (attrs : UInt8) (runtime : Runtime) (cfg : CfgData),
    runtime.compatMode = false ∧ computeCfg attrs runtime = .ok cfg ∧
      ((∃ (kind : TaryKind) (key : Nat),
          (kind.ids cfg.tables).find key = some id) ∨
        ∃ icfsym, id = baryId cfg.tables icfsym)

/-- The ids of every generation outside compatibility mode are formatted. -/
theorem IsTableId.formatted {id : Nat} (isId : IsTableId id) :
    FormattedId id := by
  obtain ⟨attrs, runtime, cfg, notCompat, computed, source⟩ := isId
  obtain ⟨facts⟩ := computeCfg_facts computed
  have assignment := facts.assignment
  rw [notCompat] at assignment
  rcases source with ⟨kind, key, found⟩ | ⟨icfsym, rfl⟩
  · exact assignment.formatted.1 kind key id found
  · exact assignment.formatted.2 icfsym

/--
In every reachable content of the table a marker byte was stored by a call, no
byte of an active or deactivated id is a marker, and a word read off the words'
starts differs from every id and is reported by every check.
-/
theorem markers_never_alias
    {history : Nat × Nat → Prop} {table : ByteMem}
    (content : TaryContent history table) :
    (∀ addr, IsMarker (table addr).toNat →
      history (addr, (table addr).toNat)) ∧
    (∀ id, IsTableId id → ∀ k, k < 8 →
      ¬ IsMarker (id / 256 ^ k % 256) ∧
        ¬ IsMarker (deactivate id / 256 ^ k % 256)) ∧
    ∀ addr, addr % 8 ≠ 0 → ∀ bid, IsTableId bid →
      table.load64 addr % 256 ≠ NPV ∧ table.load64 addr % 2 = 0 ∧
        table.load64 addr ≠ bid ∧
        idCmp bid (table.load64 addr) = .report := by
  refine ⟨content.clean.stored, ?_, ?_⟩
  · intro id isId k below
    exact ⟨isId.formatted.clean.notMarker k below,
      isId.formatted.clean_deactivate.notMarker k below⟩
  · intro addr notStart bid isId
    exact content.clean.reports notStart isId.formatted.odd

open EnforcedExample in
/-- After loading and generating, no byte of the table is a marker. -/
theorem markers_never_alias_call :
    ∃ after, genCfg 0 apartRuntime = .ok after ∧
      ∀ addr, ¬ IsMarker (after.table addr).toNat := by
  have returned : (genCfg 0 apartRuntime).toOption.isSome = true := by
    decide +kernel
  cases generated : genCfg 0 apartRuntime with
  | error fault =>
      simp [generated, Except.toOption] at returned
  | ok after =>
      have ready : TaryReady apartRuntime :=
        ⟨rfl, fun codeModule loaded => (module_of_mem loaded).1,
          apartRuntime_separate.toAlignedSymbols⟩
      let loading := Call.load (moduleAt 0x400000 programBase_aligned [⟨Name.ofPtr 16, 8⟩]
        [⟨Name.ofPtr 32, 0⟩, ⟨Name.ofPtr 48, 0⟩])
      have loaded : loading.run Runtime.boot = .ok apartRuntime := rfl
      have permitted : loading.FillsTary Runtime.boot := trivial
      have generates : (Call.generate 0).FillsTary apartRuntime := ready
      have run : MarkedRun _ after :=
        (HistoryRun.start.call ⟨permitted, loaded⟩).call ⟨generates, generated⟩
      refine ⟨after, rfl, fun addr marker => ?_⟩
      rcases (markers_never_alias (.settled run)).1 addr marker with
        (never | ⟨byLoad, _⟩) | ⟨byGenerate, _⟩
      · exact never
      · exact byLoad
      · exact byGenerate

end Mcfi
