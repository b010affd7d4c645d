import Mcfi.RuntimeCalls
import Mcfi.TableWords

namespace Mcfi

open LinkMap ByteMem

/-!
# The region of the Bary slots

`alloc_bid_slot` counts up in steps of eight bytes and never looks at where it
is.  The loader asks it for a slot for each branch of a module, and registering
metadata asks it once for every call and once more for a branch without a slot.
The slots stay apart, and below the first page that can hold code, exactly as
long as the region between the trampolines and that page is not used up.
-/

/-- The number of slots below the first page that can hold code. -/
def slotCapacity : Nat :=
  (x64AbiBase - bidSlotStart) / 8

/-- The slots that a number of calls of `alloc_bid_slot` hand out. -/
def handedOut (bidSlot : Nat) : Nat → List Nat
  | 0 => []
  | requests + 1 =>
      (allocBidSlot bidSlot).1 :: handedOut (allocBidSlot bidSlot).2 requests

/-- A registration of a branch that its code heap has no slot for. -/
def needsSlot (handle : Option Nat) (before : Runtime) : CfgMetadata → Bool
  | .icjSym name _ =>
      match getCodeHeap handle before.modules with
      | .ok (_, m) => !dictIn m.bidSlotInCodeheap name
      | .error _ => false
  | _ => false

/-- How often a call asks for a slot. -/
def Call.requests (before : Runtime) : Call → Nat
  | .load parsed => parsed.icfsyms.length
  | .register handle metadata => if needsSlot handle before metadata then 2 else 1
  | _ => 0

/-- The states that calls reach, with the slots handed out on the way. -/
inductive SlotRun : List Nat → Runtime → Prop where
  | boot : SlotRun [] Runtime.boot
  | call
      {slots : List Nat} {before after : Runtime} {call : Call}
      (run : SlotRun slots before) (returned : call.run before = .ok after) :
      SlotRun (slots ++ handedOut before.bidSlot (call.requests before)) after

/--
No slot is handed out twice, all lie below the code, and no Bary word of a branch
lies across a word of the code.
-/
structure SlotsSound (slots : List Nat) (state : Runtime) : Prop where
  fresh : slots.Nodup
  below : ∀ slot ∈ slots, slot < x64AbiBase
  branches : ∀ branch : Branch state.modules, branch.sym.offset ∈ slots
  apart : ∀ slot ∈ slots, ∀ (table : ByteMem) (word addr : Nat),
    x64AbiBase ≤ addr →
      (table.store64 slot word).load64 addr = table.load64 addr

section HandedOut

/-- The slots that are handed out, by their number. -/
theorem handedOut_eq {bidSlot : Nat} (small : bidSlot < 2 ^ 32)
    (requests : Nat) :
    handedOut bidSlot requests =
      (List.range requests).map fun index =>
        (bidSlot + 8 * index) % 2 ^ 32 := by
  induction requests generalizing bidSlot with
  | zero => rfl
  | succ requests inductionHypothesis =>
      have next : (allocBidSlot bidSlot).2 < 2 ^ 32 := Nat.mod_lt _ (by decide)
      rw [handedOut, inductionHypothesis next, List.range_succ_eq_map,
        List.map_cons, List.map_map]
      congr 1
      · simp only [allocBidSlot]
        omega
      · apply List.map_congr_left
        intro index _
        simp only [allocBidSlot, Function.comp_apply, Nat.succ_eq_add_one]
        omega

@[simp] theorem length_handedOut (bidSlot requests : Nat) :
    (handedOut bidSlot requests).length = requests := by
  induction requests generalizing bidSlot with
  | zero => rfl
  | succ requests inductionHypothesis =>
      rw [handedOut, List.length_cons, inductionHypothesis]

/-- More requests go on where the earlier ones have stopped. -/
theorem handedOut_append {bidSlot : Nat} (small : bidSlot < 2 ^ 32)
    (first second : Nat) :
    handedOut bidSlot first ++
        handedOut ((bidSlot + 8 * first) % 2 ^ 32) second =
      handedOut bidSlot (first + second) := by
  rw [handedOut_eq small, handedOut_eq small,
    handedOut_eq (Nat.mod_lt _ (by decide)), List.range_add, List.map_append,
    List.map_map]
  congr 1
  apply List.map_congr_left
  intro index _
  simp only [Function.comp_apply]
  omega

/-- The slots of a loaded module are those that are handed out for it. -/
theorem mem_assignBidSlots
    {bidSlot : Nat} (small : bidSlot < 2 ^ 32) {icfsyms : List Symbol}
    {sym : Symbol} (listed : sym ∈ assignBidSlots bidSlot icfsyms) :
    sym.offset ∈ handedOut bidSlot icfsyms.length := by
  obtain ⟨index, inside, rfl⟩ := List.mem_mapIdx.mp listed
  rw [handedOut_eq small]
  exact List.mem_map.mpr ⟨index, List.mem_range.mpr inside, rfl⟩

/-- From the start, the slots stay below the code while the region lasts. -/
theorem handedOut_below_iff (requests : Nat) :
    (∀ slot ∈ handedOut bidSlotStart requests, slot < x64AbiBase) ↔
      requests ≤ slotCapacity := by
  rw [handedOut_eq (by decide)]
  constructor
  · intro below
    by_contra more
    have first := below _ (List.mem_map.mpr
      ⟨slotCapacity, List.mem_range.mpr (by omega), rfl⟩)
    exact absurd first (by decide)
  · intro few slot listed
    obtain ⟨index, inside, rfl⟩ := List.mem_map.mp listed
    have bound := List.mem_range.mp inside
    simp only [slotCapacity, bidSlotStart, x64AbiBase] at *
    omega

/-- While the region lasts no slot is handed out twice. -/
theorem handedOut_nodup {requests : Nat} (few : requests ≤ slotCapacity) :
    (handedOut bidSlotStart requests).Nodup := by
  rw [handedOut_eq (by decide)]
  refine List.Nodup.map_on ?_ List.nodup_range
  intro first firstIn second secondIn same
  have firstBound := List.mem_range.mp firstIn
  have secondBound := List.mem_range.mp secondIn
  simp only [slotCapacity, bidSlotStart, x64AbiBase] at few same
  omega

/-- The slots of the start are whole words. -/
theorem handedOut_aligned {requests slot : Nat}
    (listed : slot ∈ handedOut bidSlotStart requests) : slot % 8 = 0 := by
  rw [handedOut_eq (by decide)] at listed
  obtain ⟨index, _, rfl⟩ := List.mem_map.mp listed
  unfold bidSlotStart
  omega

end HandedOut

section Accounting

/-- The branches and the cached slots of a module use slots handed out. -/
structure CodeModule.SlotsFrom (slots : List Nat) (m : CodeModule) :
    Prop where
  branches : ∀ sym ∈ m.icfsyms, sym.offset ∈ slots
  cached : ∀ name slot, m.bidSlotInCodeheap.find name = some slot →
    slot ∈ slots

/-- The slots handed out so far, and who uses them. -/
structure SlotAccount (slots : List Nat) (runtime : Runtime) : Prop where
  slotsAre : slots = handedOut bidSlotStart slots.length
  counter : runtime.bidSlot = (bidSlotStart + 8 * slots.length) % 2 ^ 32
  modules : ∀ m ∈ runtime.modules, m.SlotsFrom slots
  returns : ∀ extra slot, runtime.retOffset.find extra = some slot →
    slot ∈ slots

/-- The part of a module that uses slots. -/
def CodeModule.slotData (m : CodeModule) : List Symbol × OrdDict Name Nat :=
  (m.icfsyms, m.bidSlotInCodeheap)

namespace CodeModule.SlotsFrom

variable {slots more : List Nat} {m : CodeModule}

/-- Slots handed out later do not matter. -/
theorem mono (account : m.SlotsFrom slots) : m.SlotsFrom (slots ++ more) where
  branches sym listed := List.mem_append_left _ (account.branches sym listed)
  cached name slot found :=
    List.mem_append_left _ (account.cached name slot found)

/-- Only the branches and the cache of a module matter. -/
theorem congr {changed : CodeModule} (account : m.SlotsFrom slots)
    (same : changed.slotData = m.slotData) : changed.SlotsFrom slots := by
  rw [slotData, slotData, Prod.mk.injEq] at same
  exact ⟨same.1 ▸ account.branches, same.2 ▸ account.cached⟩

/-- One more branch with a slot that was handed out. -/
theorem append (account : m.SlotsFrom slots) (name : Name) {slot : Nat}
    (listed : slot ∈ slots) : (m.appendIcfsym name slot).SlotsFrom slots where
  branches sym member := by
    rcases List.mem_append.mp member with old | new
    · exact account.branches sym old
    · rw [List.mem_singleton.mp new]
      exact listed
  cached := account.cached

end CodeModule.SlotsFrom

/-- Modules whose slot data are kept use the same slots. -/
theorem slotsFrom_of_map_eq {slots : List Nat} {before after : List CodeModule}
    (same : after.map CodeModule.slotData = before.map CodeModule.slotData)
    (account : ∀ m ∈ before, m.SlotsFrom slots) :
    ∀ m ∈ after, m.SlotsFrom slots := by
  intro m loaded
  obtain ⟨old, oldLoaded, sameData⟩ :=
    (KeepsView.of_map_eq same.symm).exists_mem loaded
  exact (account old oldLoaded).congr sameData.symm

namespace SlotAccount

variable {slots : List Nat} {before after : Runtime}
  (account : SlotAccount slots before)
include account

/-- The counter is a 32-bit number. -/
theorem counter_lt : before.bidSlot < 2 ^ 32 := by
  rw [account.counter]
  exact Nat.mod_lt _ (by decide)

/-- The slots handed out are 32-bit numbers. -/
theorem slot_lt {slot : Nat} (listed : slot ∈ slots) : slot < 2 ^ 32 := by
  rw [account.slotsAre, handedOut_eq (by decide)] at listed
  obtain ⟨index, _, rfl⟩ := List.mem_map.mp listed
  exact Nat.mod_lt _ (by decide)

/-- Some more requests, by which the counter has moved. -/
theorem grow {requests : Nat}
    (counter : after.bidSlot = (before.bidSlot + 8 * requests) % 2 ^ 32)
    (modules : ∀ m ∈ after.modules,
      m.SlotsFrom (slots ++ handedOut before.bidSlot requests))
    (returns : ∀ extra slot, after.retOffset.find extra = some slot →
      slot ∈ slots ++ handedOut before.bidSlot requests) :
    SlotAccount (slots ++ handedOut before.bidSlot requests) after where
  slotsAre := by
    have started := account.slotsAre
    rw [List.length_append, length_handedOut,
      ← handedOut_append (by decide : bidSlotStart < 2 ^ 32), ← account.counter,
      ← started]
  counter := by
    have started := account.counter
    rw [List.length_append, length_handedOut, counter, started]
    omega
  modules := modules
  returns := returns

/-- A step that asks for no slot and leaves the slot data alone. -/
theorem same
    (counter : after.bidSlot = before.bidSlot)
    (modules : after.modules.map CodeModule.slotData =
      before.modules.map CodeModule.slotData)
    (returns : after.retOffset = before.retOffset) :
    SlotAccount (slots ++ handedOut before.bidSlot 0) after := by
  rw [handedOut, List.append_nil]
  exact {
    slotsAre := account.slotsAre
    counter := counter.trans account.counter
    modules := slotsFrom_of_map_eq modules account.modules
    returns := returns ▸ account.returns }

/-- Loading a module hands out a slot for each of its branches. -/
theorem load (parsed : CodeModule) :
    SlotAccount (slots ++ handedOut before.bidSlot parsed.icfsyms.length)
      (loadElf parsed before) := by
  refine account.grow rfl ?_ fun extra slot found =>
    List.mem_append_left _ (account.returns extra slot found)
  intro m loaded
  rcases List.mem_append.mp loaded with old | new
  · exact (account.modules m old).mono
  · rw [List.mem_singleton.mp new]
    exact ⟨fun sym listed => List.mem_append_right _
      (mem_assignBidSlots account.counter_lt listed),
      fun name slot found => nomatch found⟩

/-- Registering metadata hands out one slot or two. -/
theorem register {handle : Option Nat} {metadata : CfgMetadata}
    (returned : regCfgMetadata handle metadata before = .ok after) :
    SlotAccount (slots ++ handedOut before.bidSlot
      ((Call.register handle metadata).requests before)) after := by
  obtain ⟨index, m, handleRuns, step⟩ := regCfgMetadata_cases returned
  obtain ⟨located, _⟩ := getCodeHeap_ok handleRuns
  have slotsOf : m.SlotsFrom slots :=
    account.modules m (List.mem_of_getElem? located)
  have small := account.counter_lt
  -- replacing the heap by one that uses slots handed out
  have replaced : ∀ {changed : CodeModule} {requests : Nat},
      changed.SlotsFrom (slots ++ handedOut before.bidSlot requests) →
        ∀ other ∈ before.modules.set index changed,
          other.SlotsFrom (slots ++ handedOut before.bidSlot requests) := by
    intro changed requests sound other loaded
    rcases List.mem_or_eq_of_mem_set loaded with old | rfl
    · exact (account.modules other old).mono
    · exact sound
  have returns : ∀ {requests : Nat}, ∀ extra slot,
      before.retOffset.find extra = some slot →
        slot ∈ slots ++ handedOut before.bidSlot requests :=
    fun extra slot found =>
      List.mem_append_left _ (account.returns extra slot found)
  have once : ∀ kind, needsSlot handle before kind = false →
      (Call.register handle kind).requests before = 1 := by
    intro kind known
    simp [Call.requests, known]
  cases step with
  | icjKnown =>
      rw [once _ rfl]
      exact account.grow rfl (fun other loaded =>
        (account.modules other loaded).mono) returns
  | funcSym holds newAligned aligned named =>
      rw [once _ rfl]
      exact account.grow rfl (replaced (slotsOf.mono.congr rfl)) returns
  | icj named targetAdded returnNamed returnAdded =>
      rw [once _ rfl]
      exact account.grow rfl (replaced (slotsOf.mono.congr rfl)) returns
  | rai holds aligned target =>
      rw [once _ rfl]
      exact account.grow rfl (replaced (slotsOf.mono.congr rfl)) returns
  | icjSymUnreg =>
      rw [once _ rfl]
      exact account.grow rfl (replaced ⟨fun sym listed =>
        slotsOf.mono.branches sym (List.mem_filter.mp listed).1,
        slotsOf.mono.cached⟩) returns
  | funcSymUnreg holds aligned =>
      rw [once _ rfl]
      exact account.grow rfl (replaced (slotsOf.mono.congr rfl)) returns
  | raiUnreg holds aligned =>
      rw [once _ rfl]
      exact account.grow rfl (replaced (slotsOf.mono.congr rfl)) returns
  | @icjSymCached name addr slot cached =>
      have known : needsSlot handle before (.icjSym name addr) = false := by
        simp [needsSlot, handleRuns, dictIn, dictFind, cached]
      have listed := slotsOf.cached name slot cached
      rw [once _ known, Nat.mod_eq_of_lt (account.slot_lt listed)]
      exact account.grow rfl (replaced
        (slotsOf.mono.append name (List.mem_append_left _ listed))) returns
  | @icjSymFresh name addr callee cache added target =>
      obtain ⟨fresh, rfl⟩ := dictAdd_eq_ok.mp added
      have needs : needsSlot handle before (.icjSym name addr) = true := by
        simp [needsSlot, handleRuns, dictIn, dictFind,
          OrdDict.find_eq_none.mpr fresh]
      have twice : (Call.register handle (.icjSym name addr)).requests before =
          2 := by
        simp [Call.requests, needs]
      have listed : (allocBidSlot before.bidSlot).2 ∈
          slots ++ handedOut before.bidSlot 2 :=
        List.mem_append_right _ (by simp [handedOut, allocBidSlot])
      rw [twice]
      refine account.grow ?_ (replaced ?_) returns
      · simp only [Runtime.setModule, allocBidSlot]
        omega
      · refine ⟨(slotsOf.mono.append name listed).branches, ?_⟩
        intro query slot found
        change (m.bidSlotInCodeheap.insertNew name _).find query =
          some slot at found
        rw [OrdDict.find_insertNew] at found
        split at found
        next =>
          cases found
          exact listed
        next => exact slotsOf.mono.cached query slot found
  | @retKnown addr extra slot name nameKnown slotKnown =>
      rw [once _ rfl]
      exact account.grow rfl (replaced (slotsOf.mono.append name
        (returns extra slot slotKnown))) returns
  | @ret addr extra name sym retName retOffset found nameAdded slotAdded =>
      obtain ⟨codeModule, loaded, branch⟩ := queryIcfsym_ok found
      have listed := (account.modules codeModule loaded).branches sym branch
      rw [Nat.mod_eq_of_lt (account.slot_lt listed)] at slotAdded ⊢
      obtain ⟨_, rfl⟩ := dictAdd_eq_ok.mp slotAdded
      rw [once _ rfl]
      refine account.grow rfl (replaced (slotsOf.mono.append name
        (List.mem_append_left _ listed))) ?_
      intro query slot known
      change (before.retOffset.insertNew extra sym.offset).find query =
        some slot at known
      rw [OrdDict.find_insertNew] at known
      split at known
      next =>
        cases known
        exact List.mem_append_left _ listed
      next => exact returns query slot known

/-- Filling a code heap asks for no slot. -/
theorem fill {index : Nat} {heap : CodeModule}
    (step : FillStep index heap before after)
    (located : before.modules[index]? = some heap) :
    SlotAccount (slots ++ handedOut before.bidSlot 0) after := by
  cases step with
  | data image => exact account.same rfl rfl rfl
  | replaced image dst length boundaries inside => exact account.same rfl rfl rfl
  | installed image bitmap dst length boundaries inside =>
      refine account.same rfl ?_ rfl
      have unchanged : (before.modules.set index
          { heap with codeDataBitmap := bitmap }).map CodeModule.slotData =
          (before.modules.map CodeModule.slotData).set index
            heap.slotData := by
        rw [List.map_set]
        rfl
      have already : (before.modules.map CodeModule.slotData)[index]? =
          some heap.slotData := by
        rw [List.getElem?_map, located]
        rfl
      rw [unchanged]
      apply List.ext_getElem?
      intro position
      rw [List.getElem?_set]
      split
      next here =>
        subst here
        have inBounds := (List.getElem?_eq_some_iff.mp already).1
        rw [if_pos inBounds, already]
      next => rfl

/-- Each call hands out the slots that it asks for. -/
theorem step {call : Call} (returned : call.run before = .ok after) :
    SlotAccount (slots ++ handedOut before.bidSlot (call.requests before))
      after := by
  cases call with
  | load parsed =>
      cases returned
      exact account.load parsed
  | generate attrs =>
      obtain ⟨_, _, outcome⟩ := genCfg_result returned
      refine account.same outcome.bidSlotIs ?_ outcome.retOffsetIs
      rw [outcome.modulesAre, List.map_map]
      rfl
  | takeAddress attrs funcAddr =>
      obtain ⟨modules, generated, located⟩ := takeAddrAndGenCfg_ok returned
      obtain ⟨_, _, outcome⟩ := genCfg_result generated
      refine account.same outcome.bidSlotIs ?_ outcome.retOffsetIs
      rw [outcome.modulesAre, List.map_map]
      exact located fun _ _ => rfl
  | patchAt patchpoint =>
      obtain ⟨_, _, _, rfl, _⟩ := patchAt_cases returned
      exact account.same rfl rfl rfl
  | patchEntry patchpoint =>
      obtain ⟨_, _, _, _, _, _, _, _, rfl, _⟩ := patchEntry_cases returned
      exact account.same rfl (map_modifyModule _ _ fun _ => rfl) rfl
  | patchCall patchpoint =>
      rcases patchCall_cases returned with rfl | ⟨_, _, _, _, _, _, rfl⟩
      · exact account.same rfl rfl rfl
      · exact account.same rfl rfl rfl
  | createHeap ph page size verifier =>
      obtain ⟨heap, rfl, _, _, noSyms, noCache⟩ := createCodeHeap_ok returned
      refine @grow _ _ _ account 0 ?_ ?_ fun extra slot found =>
        List.mem_append_left _ (account.returns extra slot found)
      · exact (Nat.mod_eq_of_lt account.counter_lt).symm
      · intro m loaded
        rcases List.mem_append.mp loaded with old | new
        · exact (account.modules m old).mono
        · rw [List.mem_singleton.mp new]
          exact ⟨by simp [noSyms], by simp [noCache]⟩
  | fill bufferAddr handle dst src extra =>
      obtain ⟨index, heap, located, _, step⟩ := codeHeapFill_cases returned
      exact account.fill step located
  | register handle metadata => exact account.register returned

end SlotAccount

/-- Along a run the slots are those that the counter went through. -/
theorem SlotRun.account {slots : List Nat} {state : Runtime}
    (run : SlotRun slots state) : SlotAccount slots state := by
  induction run with
  | boot =>
      exact ⟨rfl, rfl, (fun m loaded => nomatch loaded),
        (fun extra slot found => nomatch found)⟩
  | call _ returned inductionHypothesis => exact inductionHypothesis.step returned

end Accounting

/--
In every run the slots are sound exactly while no more of them were asked for
than the region below the code holds.
-/
theorem slots_sound_iff {slots : List Nat} {state : Runtime}
    (run : SlotRun slots state) :
    SlotsSound slots state ↔ slots.length ≤ slotCapacity := by
  have account := run.account
  constructor
  · intro sound
    apply (handedOut_below_iff slots.length).mp
    rw [← account.slotsAre]
    exact sound.below
  · intro few
    have below : ∀ slot ∈ slots, slot < x64AbiBase := by
      rw [account.slotsAre]
      exact (handedOut_below_iff slots.length).mpr few
    refine ⟨?_, below, fun branch =>
      (account.modules _ branch.loaded).branches _ branch.listed, ?_⟩
    · rw [account.slotsAre]
      exact handedOut_nodup few
    · intro slot listed table word addr above
      have low := below slot listed
      have aligned : slot % 8 = 0 := by
        rw [account.slotsAre] at listed
        exact handedOut_aligned listed
      simp only [x64AbiBase] at *
      exact load64_store64_disjoint table (by omega)

namespace RegionExample

/-- A module with a number of branches. -/
def branchy (branches : Nat) : CodeModule :=
  { allocCodeModule with
    baseAddr := 0x400000
    baseAligned := programBase_aligned
    sz := pageSize
    sizeAligned := Nat.mod_self pageSize
    icfsyms := List.replicate branches ⟨Name.ofPtr 16, 0⟩
    instrumented := true }

/-- Loading it hands out that many slots. -/
theorem run_branchy (branches : Nat) :
    SlotRun (handedOut bidSlotStart branches)
      (loadElf (branchy branches) Runtime.boot) := by
  have run := @SlotRun.call _ _ _ (.load (branchy branches)) .boot rfl
  have requests : (Call.load (branchy branches)).requests Runtime.boot =
      branches := List.length_replicate
  rw [requests] at run
  exact run

end RegionExample

open RegionExample in
/-- One branch too many gets its slot in the first page of the code. -/
theorem slots_reach_code :
    ¬ ∀ (slots : List Nat) (state : Runtime),
      SlotRun slots state → SlotsSound slots state := by
  intro sound
  have below := (sound _ _ (run_branchy (slotCapacity + 1))).below
  exact absurd ((handedOut_below_iff _).mp below) (by decide)

open RegionExample in
/-- The slots of a module with as many branches as there are slots. -/
theorem slots_sound_full :
    SlotsSound (handedOut bidSlotStart slotCapacity)
      (loadElf (branchy slotCapacity) Runtime.boot) :=
  (slots_sound_iff (run_branchy slotCapacity)).mpr
    (length_handedOut _ _).le

end Mcfi
