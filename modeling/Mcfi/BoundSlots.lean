import Mcfi.Check
import Mcfi.EnforcedCfg
import Mcfi.JitState
import Mcfi.Sites

namespace Mcfi

open LinkMap ByteMem

/-!
# The slots that branches are bound to

A branch reads its id from a Bary slot.  `gen_bary` fills the slots with ids;
registering a branch of generated code binds it to a slot that holds a copy of
the word of its callee, as it is at that moment.  The slots lie below every
module, where only these two ever write.
-/

/-- A low word with bit 0 set. -/
structure BoundWord (table : ByteMem) (slot : Nat) : Prop extends
    LowWord slot where
  active : table.load64 slot % 2 = 1

/-- Low words with bit 0 set keep it. -/
def KeepsActive (before after : ByteMem) : Prop :=
  ∀ slot, LowWord slot → before.load64 slot % 2 = 1 →
    after.load64 slot % 2 = 1

namespace KeepsActive

variable {before middle after : ByteMem}

theorem refl (table : ByteMem) : KeepsActive table table :=
  fun _ _ active => active

theorem trans (first : KeepsActive before middle)
    (second : KeepsActive middle after) : KeepsActive before after :=
  fun slot place active => second slot place (first slot place active)

/-- A bound word stays bound. -/
theorem bound (keeps : KeepsActive before after) {slot : Nat}
    (word : BoundWord before slot) : BoundWord after slot :=
  ⟨word.toLowWord, keeps slot word.toLowWord word.active⟩

/-- Tables with the same low bytes have the same low words. -/
theorem of_low (same : ∀ addr, addr < x64AbiBase → after addr = before addr) :
    KeepsActive before after := by
  intro slot place active
  have low := place.low
  have kept : after.load64 slot = before.load64 slot :=
    load_congr fun k below => same (slot + k) (by omega)
  rw [kept]
  exact active

/-- Storing a word above the slots. -/
theorem store64_high (table : ByteMem) {addr : Nat} (word : Nat)
    (high : x64AbiBase ≤ addr) :
    KeepsActive table (table.store64 addr word) :=
  of_low fun _ below => store64_other table (Or.inl (by omega))

/-- Storing an aligned word with bit 0 set. -/
theorem store64_odd (table : ByteMem) {addr word : Nat}
    (aligned : addr % 8 = 0) (odd : word % 2 = 1) (small : word < 2 ^ 64) :
    KeepsActive table (table.store64 addr word) := by
  intro slot place active
  by_cases here : slot = addr
  · rw [here, load64_store64_same table addr small]
    exact odd
  · rw [load64_store64_aligned table aligned place.aligned here]
    exact active

/-- Setting bit 0 of an aligned word. -/
theorem setBit0 (table : ByteMem) {addr : Nat} (aligned : addr % 8 = 0) :
    KeepsActive table (setBit0 table addr) := by
  refine store64_odd table aligned ?_
    (Nat.or_lt_two_pow (load64_lt table addr) (by decide))
  rw [or_one]
  omega

/-- Activating sites above the slots. -/
theorem activate {sites : List Nat}
    (high : ∀ site ∈ sites, x64AbiBase ≤ site) (table : ByteMem) :
    KeepsActive table (sites.foldl Mcfi.activate table) := by
  induction sites generalizing table with
  | nil => exact refl table
  | cons site rest inductionHypothesis =>
      have siteHigh := high site (by simp)
      have first : KeepsActive table (Mcfi.activate table site) := by
        unfold Mcfi.activate Mcfi.setBit0
        split
        next => exact store64_high table _ siteHigh
        next => exact refl table
      rw [List.foldl_cons]
      exact first.trans (inductionHypothesis
        (fun later listed => high later (List.mem_cons_of_mem _ listed)) _)

/-- Marking landing pads above the slots. -/
theorem pads {pads : List Nat} (high : ∀ pad ∈ pads, x64AbiBase ≤ pad)
    (table : ByteMem) :
    KeepsActive table (pads.foldl
      (fun table pad => table.storeByte pad (UInt8.ofNat LPV)) table) := by
  induction pads generalizing table with
  | nil => exact refl table
  | cons pad rest inductionHypothesis =>
      have padHigh := high pad (by simp)
      have first : KeepsActive table
          (table.storeByte pad (UInt8.ofNat LPV)) := by
        refine of_low fun addr below => ?_
        have elsewhere : addr ≠ pad := by omega
        simp [storeByte, elsewhere]
      exact first.trans (inductionHypothesis
        (fun later listed => high later (List.mem_cons_of_mem _ listed)) _)

/-- Marking boundaries above the slots. -/
theorem storeBytes (table : ByteMem) {start : Nat} (bytes : List UInt8)
    (high : x64AbiBase ≤ start) :
    KeepsActive table (table.storeBytes start bytes) := by
  refine of_low fun addr below => ?_
  have before : ¬ start ≤ addr := by omega
  rw [ByteMem.storeBytes, if_neg before]

/-- Setting bit 0 of aligned words. -/
theorem setBits (entries : List WordAddr) (table : ByteMem) :
    KeepsActive table (entries.foldl
      (fun table entry => Mcfi.setBit0 table entry.addr) table) := by
  induction entries generalizing table with
  | nil => exact refl table
  | cons entry rest inductionHypothesis =>
      exact (setBit0 table entry.aligned).trans (inductionHypothesis _)

end KeepsActive

section Invariant

/-- What holds of the slots of a module. -/
structure ModuleSlots (table : ByteMem) (cfggened : Bool)
    (codeModule : CodeModule) : Prop where
  high : x64AbiBase ≤ codeModule.baseAddr
  places : ∀ sym ∈ codeModule.icfsyms, LowWord sym.offset
  filled : cfggened = true → ∀ sym ∈ codeModule.icfsyms,
    table.load64 sym.offset % 2 = 1
  cached : ∀ name slot,
    codeModule.bidSlotInCodeheap.find name = some slot → BoundWord table slot

/-- What every permitted call preserves. -/
structure SlotInvariant (runtime : Runtime) : Prop where
  notCompat : runtime.compatMode = false
  codeSites : SitesIn (fun site => x64AbiBase ≤ site) runtime.fatsInCode
  methodSites : SitesIn (fun site => x64AbiBase ≤ site) runtime.vmtd
  counter : runtime.bidSlot % 8 = 0
  modules : ∀ codeModule ∈ runtime.modules,
    ModuleSlots runtime.table runtime.cfggened codeModule
  returns : ∀ extra slot, runtime.retOffset.find extra = some slot →
    BoundWord runtime.table slot

/-- The slots of a module survive a step that keeps active words. -/
theorem ModuleSlots.keep
    {before after : ByteMem} {cfggened : Bool} {codeModule : CodeModule}
    (slots : ModuleSlots before cfggened codeModule)
    (keeps : KeepsActive before after) :
    ModuleSlots after cfggened codeModule where
  high := slots.high
  places := slots.places
  filled generated sym listed :=
    keeps _ (slots.places sym listed) (slots.filled generated sym listed)
  cached name slot found := keeps.bound (slots.cached name slot found)

/-- Once filled, the slots of a module are bound. -/
theorem ModuleSlots.bound
    {table : ByteMem} {codeModule : CodeModule}
    (slots : ModuleSlots table true codeModule) {sym : Symbol}
    (listed : sym ∈ codeModule.icfsyms) : BoundWord table sym.offset :=
  ⟨slots.places sym listed, slots.filled rfl sym listed⟩

/-- One more branch, bound to a slot that is bound already. -/
theorem ModuleSlots.append
    {table : ByteMem} {codeModule : CodeModule}
    (slots : ModuleSlots table true codeModule) (name : Name) {slot : Nat}
    (word : BoundWord table slot) :
    ModuleSlots table true (codeModule.appendIcfsym name slot) := by
  have either : ∀ sym ∈ (codeModule.appendIcfsym name slot).icfsyms,
      BoundWord table sym.offset := by
    intro sym listed
    rcases List.mem_append.mp listed with old | new
    · exact slots.bound old
    · rw [List.mem_singleton.mp new]
      exact word
  exact ⟨slots.high, fun sym listed => (either sym listed).toLowWord,
    fun _ sym listed => (either sym listed).active, slots.cached⟩

/-- A module keeps its slots when neither its branches nor its cache change. -/
theorem ModuleSlots.congr
    {table : ByteMem} {cfggened : Bool} {codeModule changed : CodeModule}
    (slots : ModuleSlots table cfggened codeModule)
    (sameBase : changed.baseAddr = codeModule.baseAddr)
    (sameSyms : changed.icfsyms = codeModule.icfsyms)
    (sameCache : changed.bidSlotInCodeheap = codeModule.bidSlotInCodeheap) :
    ModuleSlots table cfggened changed where
  high := sameBase ▸ slots.high
  places := sameSyms ▸ slots.places
  filled := sameSyms ▸ slots.filled
  cached := sameCache ▸ slots.cached

end Invariant

section Calls

/-- The addresses of the symbols lie above the slots. -/
private theorem SlotInvariant.targetHigh
    {runtime : Runtime} (invariant : SlotInvariant runtime)
    (target : TarySymbol runtime.modules) : x64AbiBase ≤ target.addr := by
  have high := (invariant.modules target.codeModule target.loaded).high
  rw [TarySymbol.addr]
  omega

variable {attrs : UInt8} {before : Runtime} {cfg : CfgData}

/-- The stores of a generation: above the slots, or a branch's id. -/
private theorem SlotInvariant.store
    (invariant : SlotInvariant before) (facts : CfgFacts attrs before cfg)
    {store : TableStore}
    (stored : store ∈ tableUpdate cfg.tables before.modules) :
    x64AbiBase ≤ store.addr ∨
      ∃ slot id, store = .bary slot id ∧ LowWord slot ∧ id % 2 = 1 := by
  rcases tableUpdate_store stored with
    ⟨target, _, addrIs, _⟩ | ⟨native, loaded, _, holds, _⟩ | ⟨branch, rfl⟩
  · left
    rw [addrIs]
    exact invariant.targetHigh target
  · have high := (invariant.modules native loaded).high
    exact Or.inl (high.trans holds.1)
  · refine Or.inr ⟨_, _, rfl, (invariant.modules branch.codeModule
      branch.loaded).places branch.sym branch.listed, ?_⟩
    exact (facts.assignment.baryId_isId invariant.notCompat branch.sym).odd

/-- Filling the tables keeps the active slots. -/
private theorem SlotInvariant.fillKeeps
    (invariant : SlotInvariant before) (facts : CfgFacts attrs before cfg) :
    KeepsActive before.table (fillTables cfg before).table := by
  refine runStores_invariant
    (motive := fun current => KeepsActive before.table current.table)
    ?_ (.refl _)
  intro store stored current keeps
  refine keeps.trans ?_
  rcases invariant.store facts stored with high | ⟨slot, id, rfl, place, odd⟩
  · rcases TableStore.exec_table current store with tableIs | ⟨tableIs, _⟩
    · rw [tableIs]
      exact .store64_high _ _ high
    · rw [tableIs]
      exact .store64_high _ _ high
  · exact .store64_odd _ place.aligned odd (facts.fits stored)

/-- Filling the tables activates every branch's slot. -/
private theorem SlotInvariant.fillActivates
    (invariant : SlotInvariant before) (facts : CfgFacts attrs before cfg)
    (branch : Branch before.modules) :
    (fillTables cfg before).table.load64 branch.sym.offset % 2 = 1 := by
  have place := (invariant.modules branch.codeModule branch.loaded).places
    branch.sym branch.listed
  have low := place.low
  have own : TableStore.bary branch.sym.offset
      (baryId cfg.tables branch.sym) ∈ tableUpdate cfg.tables before.modules :=
    mem_tableUpdate.mpr ⟨branch.codeModule, branch.loaded,
      Or.inr (mem_genBary.mpr ⟨branch.sym, branch.listed, rfl⟩)⟩
  refine load64_runStores (motive := fun word => word % 2 = 1)
    ?_ ⟨_, own, rfl⟩ ?_
  · intro store stored
    rcases invariant.store facts stored with high | ⟨slot, id, rfl, other, _⟩
    · exact Or.inr (Or.inl (low.trans high))
    · exact TableStore.apart_of_aligned other.aligned place.aligned
  · intro store stored here current
    rcases invariant.store facts stored with high | ⟨slot, id, rfl, _, odd⟩
    · omega
    · have small : id < 2 ^ 64 := facts.fits stored
      rw [← here]
      change (TableStore.exec current (.bary slot id)).table.load64 slot %
        2 = 1
      rw [TableStore.load64_exec_bary current small]
      exact odd

/-- The activations of the first generation keep the active slots. -/
private theorem compensated_keeps (cfg : CfgData) (runtime : Runtime) :
    KeepsActive (fillTables cfg runtime).table (compensated cfg runtime) := by
  unfold compensated
  split
  next => exact .refl _
  next => exact .setBits _ _

/-- What a generation preserves, and that it binds every branch. -/
private theorem SlotInvariant.generate
    {after : Runtime} (invariant : SlotInvariant before)
    (returned : genCfg attrs before = .ok after) :
    SlotInvariant after ∧ KeepsActive before.table after.table ∧
      ∀ branch : Branch before.modules,
        BoundWord after.table branch.sym.offset := by
  obtain ⟨cfg, computed, outcome⟩ := genCfg_result returned
  obtain ⟨facts⟩ := computeCfg_facts computed
  have compensation := compensated_keeps cfg before
  have keeps : KeepsActive before.table after.table := by
    rw [outcome.tableIs]
    exact (invariant.fillKeeps facts).trans compensation
  have bound : ∀ branch : Branch before.modules,
      BoundWord after.table branch.sym.offset := by
    intro branch
    have place := (invariant.modules branch.codeModule branch.loaded).places
      branch.sym branch.listed
    rw [outcome.tableIs]
    exact ⟨place, compensation _ place (invariant.fillActivates facts branch)⟩
  have sites : SitesIn (fun site => x64AbiBase ≤ site) after.fatsInCode ∧
      SitesIn (fun site => x64AbiBase ≤ site) after.vmtd :=
    sitesIn_genCfg (fun target _ => invariant.targetHigh target) returned
  refine ⟨?_, keeps, bound⟩
  exact {
    notCompat := outcome.compatModeIs ▸ invariant.notCompat
    codeSites := sites.1
    methodSites := sites.2
    counter := outcome.bidSlotIs ▸ invariant.counter
    modules := fun codeModule loaded => by
      rw [outcome.modulesAre] at loaded
      obtain ⟨old, oldLoaded, rfl⟩ := List.mem_map.mp loaded
      have slots := invariant.modules old oldLoaded
      exact {
        high := slots.high
        places := slots.places
        filled := fun _ sym listed => (bound ⟨old, oldLoaded, sym, listed⟩).active
        cached := fun name slot found => keeps.bound (slots.cached name slot found) }
    returns := fun extra slot found =>
      keeps.bound (invariant.returns extra slot (outcome.retOffsetIs ▸ found)) }

/--
The calls of the runs: modules and code heaps lie above the slots, nothing is
loaded after the first generation and nothing is registered before it.
-/
def Call.InScope (before : Runtime) : Call → Prop
  | .load parsed => before.cfggened = false ∧ parsed.instrumented = true ∧
      x64AbiBase ≤ parsed.baseAddr
  | .createHeap _ page _ _ => x64AbiBase ≤ page * pageSize
  | .takeAddress _ _ => False
  | .register _ metadata => before.cfggened = true ∧
      match metadata with
      | .funcSym _ _ | .icj _ _ | .icjSym _ _ | .rai _ _ | .ret _ _ => True
      | .icjSymUnreg _ | .funcSymUnreg _ | .raiUnreg _ => False
  | _ => True

/--
Every new slot lies below the modules, and a branch of generated code gets a new
slot for an active callee only.
-/
def Call.BindsActive (before : Runtime) : Call → Prop
  | .load parsed =>
      before.bidSlot + 8 * parsed.icfsyms.length ≤ x64AbiBase
  | .register handle (.icjSym name _) => ∀ index m callee,
      getCodeHeap handle before.modules = .ok (index, m) →
      name ∉ m.bidSlotInCodeheap →
      before.icjTarget.find name = some callee →
      before.table.load64 callee % 2 = 1 ∧
        (allocBidSlot before.bidSlot).2 + 8 ≤ x64AbiBase
  | _ => True

/-- The slots that `gen_bary` fills or a registration writes into code. -/
def Call.Binds (before after : Runtime) (slot : Nat) : Call → Prop
  | .generate _ => ∃ branch : Branch before.modules, branch.sym.offset = slot
  | .register _ (.icjSym _ addr) => slot < 2 ^ 32 ∧
      after.image = patchBidSlot before.image addr slot
  | .register _ (.ret addr _) => slot < 2 ^ 32 ∧
      after.image = patchBidSlot before.image addr slot
  | _ => False

/-- The slot that is written into code is determined by the code. -/
theorem patchBidSlot_inj {image : ByteMem} {addr first second : Nat}
    (firstSmall : first < 2 ^ 32) (secondSmall : second < 2 ^ 32)
    (same : patchBidSlot image addr first = patchBidSlot image addr second) :
    first = second := by
  have firstRead : (patchBidSlot image addr first).load (addr - 4) 4 = first :=
    load_store_same image (addr - 4) firstSmall
  have secondRead :
      (patchBidSlot image addr second).load (addr - 4) 4 = second :=
    load_store_same image (addr - 4) secondSmall
  rw [← firstRead, same, secondRead]

/-- Counting on keeps the counter of the slots aligned. -/
private theorem allocBidSlot_aligned {bidSlot : Nat}
    (aligned : bidSlot % 8 = 0) : (allocBidSlot bidSlot).2 % 8 = 0 := by
  simp only [allocBidSlot]
  omega

/-- A module is replaced by one whose slots are in order. -/
private theorem SlotInvariant.set
    (invariant : SlotInvariant before) {index : Nat} {changed : CodeModule}
    {table : ByteMem} (keeps : KeepsActive before.table table)
    (slots : ModuleSlots table before.cfggened changed) :
    ∀ codeModule ∈ before.modules.set index changed,
      ModuleSlots table before.cfggened codeModule := by
  intro codeModule loaded
  rcases List.mem_or_eq_of_mem_set loaded with old | rfl
  · exact (invariant.modules codeModule old).keep keeps
  · exact slots

/-- After a generation a module may get a branch with a bound slot. -/
private theorem bindSlot
    (generated : before.cfggened = true) {table : ByteMem}
    {codeModule : CodeModule} (name : Name) {slot : Nat}
    (slots : ModuleSlots table before.cfggened codeModule)
    (word : BoundWord table slot) :
    ModuleSlots table before.cfggened (codeModule.appendIcfsym name slot) := by
  rw [generated] at slots ⊢
  exact slots.append name word

/-- What a registration preserves, and that it binds a branch to active slots. -/
private theorem SlotInvariant.register
    {handle : Option Nat} {metadata : CfgMetadata} {after : Runtime}
    (invariant : SlotInvariant before)
    (inScope : (Call.register handle metadata).InScope before)
    (bindsActive : (Call.register handle metadata).BindsActive before)
    (returned : regCfgMetadata handle metadata before = .ok after) :
    SlotInvariant after ∧ KeepsActive before.table after.table ∧
      ∀ slot, (Call.register handle metadata).Binds before after slot →
        BoundWord after.table slot := by
  obtain ⟨index, m, handleRuns, step⟩ := regCfgMetadata_cases returned
  obtain ⟨located, _⟩ := getCodeHeap_ok handleRuns
  obtain ⟨generated, kinds⟩ := inScope
  have slots : ModuleSlots before.table before.cfggened m :=
    invariant.modules m (List.mem_of_getElem? located)
  have counter := allocBidSlot_aligned invariant.counter
  have same := KeepsActive.refl before.table
  -- every case names the words that it keeps and the slots of the heap
  cases step with
  | icjKnown =>
      exact ⟨{ invariant with counter := counter }, same,
        fun slot binds => binds.elim⟩
  | @funcSym newAddr addr name holds newAligned aligned named =>
      have keeps : KeepsActive before.table
          (before.table.store64 newAddr (before.table.load64 addr)) :=
        .store64_high _ _ (slots.high.trans holds.1)
      refine ⟨{ invariant with
        counter := counter
        modules := invariant.set keeps
          ((slots.keep keeps).congr rfl rfl rfl)
        returns := fun extra slot found =>
          keeps.bound (invariant.returns extra slot found) },
        keeps, fun slot binds => binds.elim⟩
  | icj named targetAdded returnNamed returnAdded =>
      exact ⟨{ invariant with
        counter := counter
        modules := invariant.set same (slots.congr rfl rfl rfl) },
        same, fun slot binds => binds.elim⟩
  | @rai name addr ra holds aligned target =>
      have keeps : KeepsActive before.table (setBit0
          (before.table.store64 addr (before.table.load64 ra)) addr) :=
        (KeepsActive.store64_high _ _ (slots.high.trans holds.1)).trans
          (.setBit0 _ aligned)
      exact ⟨{ invariant with
        counter := counter
        modules := invariant.set keeps
          ((slots.keep keeps).congr rfl rfl rfl)
        returns := fun extra slot found =>
          keeps.bound (invariant.returns extra slot found) },
        keeps, fun slot binds => binds.elim⟩
  | icjSymUnreg => exact kinds.elim
  | funcSymUnreg holds aligned => exact kinds.elim
  | raiUnreg holds aligned => exact kinds.elim
  | @icjSymCached name addr slot cached =>
      have word := slots.cached name slot cached
      have small := word.toLowWord.lt
      rw [Nat.mod_eq_of_lt small]
      refine ⟨{ invariant with
        counter := counter
        modules := invariant.set same (bindSlot generated name slots word) },
        same, ?_⟩
      rintro bound ⟨boundSmall, written⟩
      rw [← patchBidSlot_inj small boundSmall written]
      exact word
  | @icjSymFresh name addr callee cache added target =>
      obtain ⟨fresh, rfl⟩ := dictAdd_eq_ok.mp added
      obtain ⟨odd, low⟩ := bindsActive index m callee handleRuns fresh target
      have keeps := KeepsActive.store64_odd before.table counter odd
        (load64_lt before.table callee)
      have word : BoundWord (before.table.store64
          (allocBidSlot before.bidSlot).2 (before.table.load64 callee))
          (allocBidSlot before.bidSlot).2 := by
        refine ⟨⟨counter, low⟩, ?_⟩
        rw [load64_store64_same _ _ (load64_lt before.table callee)]
        exact odd
      have appended := bindSlot generated name (slots.keep keeps) word
      refine ⟨{ invariant with
        counter := allocBidSlot_aligned counter
        modules := invariant.set keeps {
          high := slots.high
          places := appended.places
          filled := appended.filled
          cached := fun query slot found => by
            rw [OrdDict.find_insertNew] at found
            split at found
            next =>
              cases found
              exact word
            next => exact keeps.bound (slots.cached query slot found) }
        returns := fun extra slot found =>
          keeps.bound (invariant.returns extra slot found) }, keeps, ?_⟩
      rintro bound ⟨boundSmall, written⟩
      rw [← patchBidSlot_inj word.toLowWord.lt boundSmall written]
      exact word
  | @retKnown addr extra slot name nameKnown slotKnown =>
      have word := invariant.returns extra slot slotKnown
      refine ⟨{ invariant with
        counter := counter
        modules := invariant.set same (bindSlot generated name slots word) },
        same, ?_⟩
      rintro bound ⟨boundSmall, written⟩
      rw [← patchBidSlot_inj word.toLowWord.lt boundSmall written]
      exact word
  | @ret addr extra name sym retName retOffset found nameAdded slotAdded =>
      obtain ⟨codeModule, loaded, listed⟩ := queryIcfsym_ok found
      have word : BoundWord before.table sym.offset :=
        (generated ▸ invariant.modules codeModule loaded).bound listed
      have small := word.toLowWord.lt
      rw [Nat.mod_eq_of_lt small] at slotAdded ⊢
      obtain ⟨_, rfl⟩ := dictAdd_eq_ok.mp slotAdded
      refine ⟨{ invariant with
        counter := counter
        modules := invariant.set same (bindSlot generated name slots word)
        returns := fun query slot known => by
          change (before.retOffset.insertNew extra sym.offset).find query =
            some slot at known
          rw [OrdDict.find_insertNew] at known
          split at known
          next =>
            cases known
            exact word
          next => exact invariant.returns query slot known }, same, ?_⟩
      rintro bound ⟨boundSmall, written⟩
      rw [← patchBidSlot_inj small boundSmall written]
      exact word

/-- The slots of a loaded module are new. -/
private theorem moduleSlots_load
    {parsed : CodeModule} (invariant : SlotInvariant before)
    (inScope : (Call.load parsed).InScope before)
    (bindsActive : (Call.load parsed).BindsActive before) :
    ∀ codeModule ∈ (loadElf parsed before).modules,
      ModuleSlots before.table before.cfggened codeModule := by
  obtain ⟨notGenerated, _, high⟩ := inScope
  have below : before.bidSlot + 8 * parsed.icfsyms.length ≤ x64AbiBase :=
    bindsActive
  have aligned := invariant.counter
  intro codeModule loaded
  rcases List.mem_append.mp loaded with old | new
  · exact invariant.modules codeModule old
  · rw [List.mem_singleton.mp new]
    exact {
      high := high
      places := fun sym listed => by
        obtain ⟨index, inside, rfl⟩ := List.mem_mapIdx.mp listed
        unfold x64AbiBase at below
        constructor <;> simp only [x64AbiBase] <;> omega
      filled := fun generated => absurd generated (by simp [notGenerated])
      cached := fun name slot found => by
        cases found }

/-- Changing a module in place, but not its slots. -/
private theorem moduleSlots_modify
    {table : ByteMem} {cfggened : Bool} {modules : List CodeModule}
    {change : CodeModule → CodeModule} {addr : Nat}
    (slots : ∀ codeModule ∈ modules, ModuleSlots table cfggened codeModule)
    (same : ∀ codeModule, ModuleSlots table cfggened codeModule →
      ModuleSlots table cfggened (change codeModule)) :
    ∀ codeModule ∈ modifyModule modules addr change,
      ModuleSlots table cfggened codeModule := by
  induction modules with
  | nil => exact slots
  | cons head rest inductionHypothesis =>
      rw [List.forall_mem_cons] at slots
      rw [modifyModule]
      split
      next =>
        rw [List.forall_mem_cons]
        exact ⟨same head slots.1, slots.2⟩
      next =>
        rw [List.forall_mem_cons]
        exact ⟨slots.1, inductionHypothesis slots.2⟩

/-- What each call preserves, and that the slots it binds are active. -/
theorem slotInvariant_call
    {call : Call} {after : Runtime} (invariant : SlotInvariant before)
    (inScope : call.InScope before) (bindsActive : call.BindsActive before)
    (returned : call.run before = .ok after) :
    SlotInvariant after ∧ KeepsActive before.table after.table ∧
      ∀ slot, call.Binds before after slot → BoundWord after.table slot := by
  cases call with
  | load parsed =>
      cases returned
      have instrumented := inScope.2.1
      refine ⟨{ invariant with
        notCompat := by
          simp only [loadElf, invariant.notCompat, instrumented]
          rfl
        counter := by
          have aligned := invariant.counter
          simp only [loadElf]
          omega
        modules := moduleSlots_load invariant inScope bindsActive },
        .refl _, fun slot binds => binds.elim⟩
  | generate attrs =>
      obtain ⟨next, keeps, bound⟩ := invariant.generate returned
      refine ⟨next, keeps, ?_⟩
      rintro slot ⟨branch, rfl⟩
      exact bound branch
  | takeAddress attrs funcAddr => exact inScope.elim
  | patchAt patchpoint =>
      obtain ⟨sites, fatsInCode, image, rfl, recorded, fewer⟩ :=
        patchAt_cases returned
      have keeps : KeepsActive before.table
          (sites.foldl activate before.table) := by
        refine .activate (fun site listed => ?_) _
        obtain ⟨name, linked⟩ := recorded site listed
        exact invariant.codeSites name site linked
      exact ⟨{ invariant with
        codeSites := fun name site linked =>
          invariant.codeSites name site (fewer name site linked)
        modules := fun codeModule loaded =>
          (invariant.modules codeModule loaded).keep keeps
        returns := fun extra slot found =>
          keeps.bound (invariant.returns extra slot found) },
        keeps, fun slot binds => binds.elim⟩
  | patchEntry patchpoint =>
      obtain ⟨codeModule, sites, pads, vtable, image, found, _, padsAre, rfl,
        recorded⟩ := patchEntry_cases returned
      have high := (invariant.modules codeModule
        (List.mem_of_find?_eq_some found)).high
      have sitesHigh : ∀ site ∈ sites, x64AbiBase ≤ site := by
        intro site listed
        obtain ⟨name, linked⟩ := recorded site listed
        exact invariant.methodSites name site linked
      have padsHigh : ∀ pad ∈ pads, x64AbiBase ≤ pad := by
        intro pad listed
        rw [padsAre, List.mem_map] at listed
        obtain ⟨key, _, rfl⟩ := listed
        omega
      have keeps := (KeepsActive.activate sitesHigh before.table).trans
        (.pads padsHigh _)
      exact ⟨{ invariant with
        modules := moduleSlots_modify
          (fun codeModule loaded =>
            (invariant.modules codeModule loaded).keep keeps)
          fun _ slots => slots.congr rfl rfl rfl
        returns := fun extra slot found =>
          keeps.bound (invariant.returns extra slot found) },
        keeps, fun slot binds => binds.elim⟩
  | patchCall patchpoint =>
      rcases patchCall_cases returned with
        rfl | ⟨target, table, _, _, _, tableIs, rfl⟩
      · exact ⟨invariant, .refl _, fun slot binds => binds.elim⟩
      · have keeps : KeepsActive before.table table := by
          rcases tableIs with rfl | rfl
          · exact .refl _
          · exact .setBit0 _ target.aligned
        exact ⟨{ invariant with
          modules := fun codeModule loaded =>
            (invariant.modules codeModule loaded).keep keeps
          returns := fun extra slot found =>
            keeps.bound (invariant.returns extra slot found) },
          keeps, fun slot binds => binds.elim⟩
  | createHeap ph page size verifier =>
      obtain ⟨heap, rfl, place, _, noSyms, noCache⟩ :=
        createCodeHeap_ok returned
      have base : heap.baseAddr = page * pageSize := congrArg Prod.fst place
      have slots : ModuleSlots before.table before.cfggened heap := {
        high := base ▸ inScope
        places := by simp [noSyms]
        filled := by simp [noSyms]
        cached := by simp [noCache] }
      refine ⟨{ invariant with
        modules := fun codeModule loaded => ?_ },
        .refl _, fun slot binds => binds.elim⟩
      rcases List.mem_append.mp loaded with old | new
      · exact invariant.modules codeModule old
      · rw [List.mem_singleton.mp new]
        exact slots
  | fill bufferAddr handle dst src extra =>
      obtain ⟨index, heap, located, isHeap, step⟩ :=
        codeHeapFill_cases returned
      have slots := invariant.modules heap (List.mem_of_getElem? located)
      cases step with
      | data image =>
          exact ⟨{ invariant with }, .refl _, fun slot binds => binds.elim⟩
      | replaced image start length boundaries inside =>
          have keeps := KeepsActive.storeBytes before.table
            (boundaryBytes length boundaries) (slots.high.trans inside.1)
          exact ⟨{ invariant with
            modules := fun codeModule loaded =>
              (invariant.modules codeModule loaded).keep keeps
            returns := fun extra slot found =>
              keeps.bound (invariant.returns extra slot found) },
            keeps, fun slot binds => binds.elim⟩
      | installed image bitmap start length boundaries inside =>
          have keeps := KeepsActive.storeBytes before.table
            (boundaryBytes length boundaries) (slots.high.trans inside.1)
          exact ⟨{ invariant with
            modules := invariant.set keeps
              ((slots.keep keeps).congr rfl rfl rfl)
            returns := fun extra slot found =>
              keeps.bound (invariant.returns extra slot found) },
            keeps, fun slot binds => binds.elim⟩
  | register handle metadata =>
      exact invariant.register inScope bindsActive returned

end Calls

section Runs

/-- The runs of these calls, with the slots that branches were bound to. -/
def BindingRun (admits : Runtime → Call → Prop) :
    (Nat → Prop) → Runtime → Prop :=
  HistoryRun
    (Admitted fun before call => call.InScope before ∧ admits before call)
    (fun before call after slot => call.Binds before after slot)
    Runtime.boot

/-- Nothing is bound before anything is loaded. -/
private theorem slotInvariant_boot : SlotInvariant Runtime.boot where
  notCompat := rfl
  codeSites := NoSites.sitesIn not_linked_empty _
  methodSites := NoSites.sitesIn not_linked_empty _
  counter := by decide
  modules codeModule loaded := (List.not_mem_nil loaded).elim
  returns extra slot found := by cases found

/--
As long as every new slot lies below the modules and copies an active word, every
slot that was ever bound holds an active word, and a check that finds its two
words equal has found an active target.
-/
theorem bound_slots_active
    {history : Nat → Prop} {runtime : Runtime}
    (run : BindingRun (fun before call => call.BindsActive before)
      history runtime)
    (slot : Nat) (bound : history slot) :
    runtime.table.load64 slot % 2 = 1 ∧
      ∀ addr, runtime.table.load64 slot = runtime.table.load64 addr →
        runtime.table.load64 addr % 2 = 1 ∧ runtime.table.load64 addr ≠ 0 := by
  have word : BoundWord runtime.table slot :=
    HistoryRun.recorded_holds (motive := SlotInvariant)
      (fun current slot => BoundWord current.table slot)
      run slotInvariant_boot
      (fun invariant step => (slotInvariant_call invariant step.admitted.1
        step.admitted.2 step.returned).1)
      (fun invariant step binds => (slotInvariant_call invariant
        step.admitted.1 step.admitted.2 step.returned).2.2 _ binds)
      (fun invariant step word => (slotInvariant_call invariant
        step.admitted.1 step.admitted.2 step.returned).2.1.bound word)
      slot bound
  refine ⟨word.active, fun addr equal => ?_⟩
  rw [← equal]
  have active := word.active
  refine ⟨active, fun zero => ?_⟩
  rw [zero] at active
  cases active

/-- Registering a branch binds it to the slot that is written into its code. -/
theorem icjSym_binds
    {handle : Option Nat} {name : Name} {addr : Nat} {before after : Runtime}
    (returned : regCfgMetadata handle (.icjSym name addr) before = .ok after) :
    (Call.register handle (.icjSym name addr)).Binds before after
      (after.image.load (addr - 4) 4) := by
  have written : ∃ slot < 2 ^ 32,
      after.image = patchBidSlot before.image addr slot := by
    obtain ⟨index, m, _, step⟩ := regCfgMetadata_cases returned
    cases step with
    | icjSymCached cached =>
        exact ⟨_, Nat.mod_lt _ (by decide), rfl⟩
    | icjSymFresh added target =>
        exact ⟨_, Nat.mod_lt _ (by decide), rfl⟩
  obtain ⟨slot, small, imageIs⟩ := written
  have slotIs : after.image.load (addr - 4) 4 = slot := by
    rw [imageIs]
    exact load_store_same before.image (addr - 4) small
  rw [slotIs]
  exact ⟨small, imageIs⟩

end Runs

namespace SlotExample

open EnforcedExample JitExample

/-- A function that is called directly, and whose address is never taken. -/
def directCallee : Function :=
  { callee with name := Name.ofPtr 96 }

/-- A module with both functions, and a direct call of each. -/
def parsed : CodeModule :=
  { moduleAt 0x400000 programBase_aligned [⟨Name.ofPtr 16, 8⟩, ⟨Name.ofPtr 96, 24⟩]
      [⟨Name.ofPtr 32, 0⟩] with
    functions := [callee, directCallee]
    funcsyms := [⟨Name.ofPtr 16, 0⟩, ⟨Name.ofPtr 96, 16⟩] }

/-- The process has loaded the module and created a code heap. -/
def created : Rt Runtime :=
  createCodeHeap 8 0x500 pageSize (some nopVerifier)
    (loadElf parsed Runtime.boot)

/-- It has generated its CFG. -/
def generated : Rt Runtime := do
  genCfg 0 (← created)

/-- It has registered a call of the function at an address. -/
def registered (target : Nat) : Rt Runtime := do
  regCfgMetadata (some 1) (.icj (Name.ofPtr 112) target) (← generated)

/-- It has registered a branch of its generated code that makes that call. -/
def bound (target : Nat) : Rt Runtime := do
  regCfgMetadata (some 1) (.icjSym (Name.ofPtr 112) 0x500010)
    (← registered target)

/-- The run of these calls binds the slot in the code of the branch. -/
theorem bound_run
    {admits : Runtime → Call → Prop} {target : Nat} {after : Runtime}
    (returned : bound target = .ok after)
    (early : ∀ before call, call.BindsActive before → call.InScope before →
      (∀ handle name addr, call ≠ .register handle (.icjSym name addr)) →
      admits before call)
    (last : ∀ before, registered target = .ok before →
      admits before (.register (some 1) (.icjSym (Name.ofPtr 112) 0x500010))) :
    ∃ history, BindingRun admits history after ∧
      history (after.image.load 0x50000c 4) := by
  unfold bound at returned
  rw [bind_eq_ok] at returned
  obtain ⟨third, registers, binds⟩ := returned
  have thirdIs := registers
  unfold registered at registers
  rw [bind_eq_ok] at registers
  obtain ⟨second, generates, registers⟩ := registers
  unfold generated at generates
  rw [bind_eq_ok] at generates
  obtain ⟨first, creates, generates⟩ := generates
  have loadScope : (Call.load parsed).InScope Runtime.boot :=
    ⟨rfl, rfl, by decide⟩
  have heapScope : (Call.createHeap 8 0x500 pageSize
      (some nopVerifier)).InScope (loadElf parsed Runtime.boot) := by
    show x64AbiBase ≤ 0x500 * pageSize
    decide
  obtain ⟨_, _, outcome⟩ := genCfg_result generates
  have icjScope : (Call.register (some 1)
      (.icj (Name.ofPtr 112) target)).InScope second :=
    ⟨outcome.cfggenedIs, trivial⟩
  have symScope : (Call.register (some 1)
      (.icjSym (Name.ofPtr 112) 0x500010)).InScope third := by
    refine ⟨?_, trivial⟩
    obtain ⟨_, _, _, step⟩ := regCfgMetadata_cases registers
    cases step with
    | icjKnown => exact outcome.cfggenedIs
    | icj _ _ _ _ => exact outcome.cfggenedIs
  have loading : admits Runtime.boot (.load parsed) :=
    early _ _ (by show _ ≤ x64AbiBase; decide) loadScope (by simp)
  have creating : admits (loadElf parsed Runtime.boot)
      (.createHeap 8 0x500 pageSize (some nopVerifier)) :=
    early _ _ trivial heapScope (by simp)
  have generateScope : (Call.generate 0).InScope first := trivial
  have generating := early first (.generate 0) trivial generateScope (by simp)
  have registering : admits second
      (.register (some 1) (.icj (Name.ofPtr 112) target)) :=
    early _ _ trivial icjScope (by simp)
  have run : BindingRun admits _ after :=
    ((((HistoryRun.start.call ⟨⟨loadScope, loading⟩, rfl⟩).call
      ⟨⟨heapScope, creating⟩, creates⟩).call
      ⟨⟨generateScope, generating⟩, generates⟩).call
      ⟨⟨icjScope, registering⟩, registers⟩).call
      ⟨⟨symScope, last third thirdIs⟩, binds⟩
  exact ⟨_, run, Or.inr (icjSym_binds binds)⟩

end SlotExample

open SlotExample in
/--
A branch of generated code that calls a function whose address is never taken is
bound to a zero word, and its check lets it go to an address that is no target.
-/
theorem branch_bound_to_zero :
    ∃ history runtime slot, BindingRun (fun _ _ => True) history runtime ∧
      history slot ∧ runtime.cfggened = true ∧ runtime.compatMode = false ∧
      runtime.table.load64 slot = 0 ∧
      (∀ target : TarySymbol runtime.modules, target.addr ≠ 0x400020) ∧
      runtime.table.load64 0x400020 = 0 ∧
      idCmp (runtime.table.load64 slot) (runtime.table.load64 0x400020) =
        .go := by
  have computed : (bound 0x400010).toOption.map (fun runtime =>
      (runtime.cfggened, runtime.compatMode,
        runtime.table.load64 (runtime.image.load 0x50000c 4),
        runtime.table.load64 0x400020,
        runtime.modules.all fun codeModule =>
          (codeModule.funcsyms ++ codeModule.rad ++ codeModule.rai).all
            fun sym => codeModule.baseAddr + sym.offset ≠ 0x400020)) =
      some (true, false, 0, 0, true) := by
    decide +kernel
  cases returned : bound 0x400010 with
  | error fault =>
      simp [returned, Except.toOption] at computed
  | ok runtime =>
      simp only [returned, Except.toOption, Option.map_some,
        Option.some.injEq, Prod.mk.injEq] at computed
      obtain ⟨generated, notCompat, slotZero, wordZero, elsewhere⟩ := computed
      have runs : ∃ history,
          BindingRun (fun _ _ => True) history runtime ∧
            history (runtime.image.load 0x50000c 4) :=
        bound_run returned (fun _ _ _ _ _ => trivial) (fun _ _ => trivial)
      obtain ⟨history, run, bound⟩ := runs
      refine ⟨history, runtime, _, run, bound, generated, notCompat, slotZero,
        ?_, wordZero, by rw [slotZero, wordZero]; rfl⟩
      rintro ⟨codeModule, loaded, kind, sym, listed⟩
      have apart := List.all_eq_true.mp (List.all_eq_true.mp elsewhere
        codeModule loaded) sym (by
          cases kind <;> simp_all [TaryKind.symbols])
      exact of_decide_eq_true apart

open SlotExample in
/-- A branch of generated code that calls a function whose address is taken. -/
theorem bound_slots_active_call :
    ∃ runtime, bound 0x400000 = .ok runtime ∧
      runtime.table.load64 (runtime.image.load 0x50000c 4) % 2 = 1 := by
  have computed : (bound 0x400000).toOption.isSome = true ∧
      (registered 0x400000).toOption.map (fun before =>
        (before.icjTarget.find (Name.ofPtr 112),
          before.table.load64 0x400000 % 2,
          decide ((allocBidSlot before.bidSlot).2 + 8 ≤ x64AbiBase))) =
      some (some 0x400000, 1, true) := by
    decide +kernel
  obtain ⟨returns, atLast⟩ := computed
  cases returned : bound 0x400000 with
  | error fault =>
      simp [returned, Except.toOption] at returns
  | ok runtime =>
      obtain ⟨history, run, bound⟩ :=
        bound_run returned (fun _ _ meets _ _ => meets) (by
          intro before registers index m callee _ _ target
          simp only [registers, Except.toOption, Option.map_some,
            Option.some.injEq, Prod.mk.injEq, decide_eq_true_eq] at atLast
          rw [atLast.1] at target
          cases target
          exact atLast.2)
      exact ⟨runtime, rfl, (bound_slots_active run _ bound).1⟩

end Mcfi
