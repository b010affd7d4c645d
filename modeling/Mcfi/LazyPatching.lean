import Mcfi.OnlinePatching
import Mcfi.RuntimeCalls

namespace Mcfi

open ByteMem LinkMap

/-!
# Lazy patching

A trap at a call site or at a function entry restores the word that it stands
in.  `patch_call` does nothing when it is repeated, `patch_entry` restores its
word again: where the entry is a call site too, the word with the patched call.
-/

section Runs

/-- The two traps. -/
inductive PatchCall where
  | entry (patchpoint : Nat)
  | call (patchpoint : Nat)

/-- The call that a trap leads to. -/
def PatchCall.run : PatchCall → Runtime → Rt Runtime
  | .entry patchpoint => patchEntry patchpoint
  | .call patchpoint => patchCall patchpoint

/-- The states that traps of a kind lead to, with all traps so far. -/
inductive PatchRun (Allowed : Runtime → PatchCall → Prop) (start : Runtime) :
    List PatchCall → Runtime → Prop where
  | start : PatchRun Allowed start [] start
  | step
      {trace : List PatchCall} {before after : Runtime} {call : PatchCall}
      (run : PatchRun Allowed start trace before)
      (allowed : Allowed before call)
      (returned : call.run before = .ok after) :
      PatchRun Allowed start (trace ++ [call]) after

/--
An entry is not patched once the call in its word is, unless the word that it
restores is there already.
-/
def PatchCall.Careful (runtime : Runtime) : PatchCall → Prop
  | .entry patchpoint =>
      ∀ m, findModule runtime.modules patchpoint = some m →
        (∀ repeated ∈ runtime.patchedRa, m.Holds repeated →
          (roundUp8 repeated).addr ≠ patchpoint + 8) ∨
        m.funcOrig.find (patchpoint - m.baseAddr) =
          some (runtime.image.load64 patchpoint)
  | .call _ => True

variable (m : CodeModule) (trace : List PatchCall)

/-- The entry at an offset was patched. -/
def Entered (offset : Nat) : Prop :=
  .entry (m.baseAddr + offset) ∈ trace

/-- The call before a return address was patched. -/
def Called (offset : Nat) : Prop :=
  ∃ patchpoint, .call patchpoint ∈ trace ∧ m.Holds patchpoint ∧
    (roundUp8 patchpoint).addr = m.baseAddr + offset

/--
No word that was restored is reverted.  Where an entry is a call site too, its
word has the patched call until that call is patched out.
-/
structure Restored (loaded : LoadedElf) (image : ByteMem) : Prop where
  calls : ∀ offset ∈ m.raOrig, Called m trace offset →
    image.load64 (m.baseAddr + (offset - 8)) =
      loaded.original.load64 (offset - 8)
  entries : ∀ offset ∈ m.funcOrig, Entered m trace offset →
    (offset + 8 ∉ m.raOrig ∨ Called m trace (offset + 8)) →
      image.load64 (m.baseAddr + offset) = loaded.original.load64 offset
  pending : ∀ offset ∈ m.funcOrig, Entered m trace offset →
    ¬ Called m trace (offset + 8) →
      m.funcOrig.find offset = some (image.load64 (m.baseAddr + offset))

/-- Every entry and every call site was patched. -/
def AllPatched : Prop :=
  (∀ offset ∈ m.raOrig, Called m trace offset) ∧
    ∀ offset ∈ m.funcOrig, Entered m trace offset

/-- The modules lie apart, with the words that are patched inside of them. -/
structure PatchLayout (modules : List CodeModule) : Prop where
  apart : ∀ (i j : Nat) (left right : CodeModule),
    modules[i]? = some left → modules[j]? = some right → i ≠ j →
      ∀ addr, left.Holds addr → ¬ right.Holds addr
  inside : ∀ codeModule ∈ modules, codeModule.WordsInside

/-- A module stands in memory as `load_mcfi_metadata` has prepared it. -/
structure StandsAs (loaded : LoadedElf) (image : ByteMem) : Prop where
  size : m.sz = loaded.codeModule.sz
  calls : m.raOrig = loaded.codeModule.raOrig
  entries : m.funcOrig = loaded.codeModule.funcOrig
  bytes : ∀ offset < m.sz, image (m.baseAddr + offset) = loaded.patched offset

end Runs

section Modules

/-- What traps do not change of a module. -/
def CodeModule.patchData (m : CodeModule) :
    Nat × Nat × OrdDict Nat Nat × OrdDict Nat Nat :=
  (m.baseAddr, m.sz, m.raOrig, m.funcOrig)

/-- The module that handles a trap is one that was there at the start. -/
private theorem findModule_old
    {start now : List CodeModule}
    (same : now.map CodeModule.patchData = start.map CodeModule.patchData)
    {found : CodeModule} {addr : Nat}
    (isFound : findModule now addr = some found) :
    found.Holds addr ∧ ∃ (i : Nat) (old : CodeModule),
      start[i]? = some old ∧ old.patchData = found.patchData := by
  refine ⟨by simpa using List.find?_some isFound, ?_⟩
  obtain ⟨i, there⟩ := List.mem_iff_getElem?.mp
    (List.mem_of_find?_eq_some isFound)
  have place : (start.map CodeModule.patchData)[i]? = some found.patchData := by
    rw [← same, List.getElem?_map, there]
    rfl
  rw [List.getElem?_map, Option.map_eq_some_iff] at place
  obtain ⟨old, oldThere, oldSame⟩ := place
  exact ⟨i, old, oldThere, oldSame⟩

/-- Patch data say which addresses a module holds. -/
private theorem holds_of_patchData
    {left right : CodeModule} (same : left.patchData = right.patchData)
    {addr : Nat} (holds : left.Holds addr) : right.Holds addr := by
  simp only [CodeModule.patchData, Prod.mk.injEq] at same
  rw [CodeModule.Holds, ← same.1, ← same.2.1]
  exact holds

/-- A module that shares an address with another is that module. -/
private theorem patchData_of_shared
    {start : List CodeModule} (layout : PatchLayout start) {i index : Nat}
    {old m found : CodeModule} {addr : Nat} (located : start[index]? = some m)
    (oldThere : start[i]? = some old) (same : old.patchData = found.patchData)
    (foundHolds : found.Holds addr) (holds : m.Holds addr) :
    found.patchData = m.patchData := by
  by_cases here : i = index
  · subst here
    rw [oldThere, Option.some.injEq] at located
    rw [← same, located]
  · exact absurd holds (layout.apart i index old m oldThere located here addr
      (holds_of_patchData same.symm foundHolds))

end Modules

section Invariant

/-- What each word of the module holds, by the traps so far. -/
structure PatchInvariant (start : List CodeModule) (m : CodeModule)
    (loaded : LoadedElf) (trace : List PatchCall) (state : Runtime) : Prop where
  modules : state.modules.map CodeModule.patchData =
    start.map CodeModule.patchData
  repeated : ∀ patchpoint, m.Holds patchpoint →
    (patchpoint ∈ state.patchedRa ↔ .call patchpoint ∈ trace)
  aligned : ∀ patchpoint, .entry patchpoint ∈ trace → patchpoint % 8 = 0
  called : ∀ offset, offset % 8 = 0 → offset + 8 ≤ m.sz →
    Called m trace (offset + 8) →
      state.image.load64 (m.baseAddr + offset) = loaded.original.load64 offset
  entered : ∀ offset, offset % 8 = 0 → offset + 8 ≤ m.sz →
    ¬ Called m trace (offset + 8) → Entered m trace offset →
      m.funcOrig.find offset =
        some (state.image.load64 (m.baseAddr + offset))
  untouched : ∀ offset, offset % 8 = 0 → offset + 8 ≤ m.sz →
    ¬ Called m trace (offset + 8) → ¬ Entered m trace offset →
      state.image.load64 (m.baseAddr + offset) = loaded.patched.load64 offset

variable {start : List CodeModule} {m : CodeModule} {index : Nat}
  {loaded : LoadedElf} {trace : List PatchCall} {before after : Runtime}
  {patchpoint : Nat}

private theorem called_entry (offset : Nat) :
    Called m (trace ++ [.entry patchpoint]) offset ↔ Called m trace offset := by
  simp [Called]

private theorem entered_call (offset : Nat) :
    Entered m (trace ++ [.call patchpoint]) offset ↔ Entered m trace offset := by
  simp [Entered]

private theorem entered_entry (offset : Nat) :
    Entered m (trace ++ [.entry patchpoint]) offset ↔
      Entered m trace offset ∨ m.baseAddr + offset = patchpoint := by
  simp [Entered]

private theorem called_call (offset : Nat) :
    Called m (trace ++ [.call patchpoint]) offset ↔
      Called m trace offset ∨ (m.Holds patchpoint ∧
        (roundUp8 patchpoint).addr = m.baseAddr + offset) := by
  simp only [Called, List.mem_append, List.mem_singleton, PatchCall.call.injEq]
  constructor
  · rintro ⟨other, old | rfl, facts⟩
    · exact Or.inl ⟨other, old, facts⟩
    · exact Or.inr facts
  · rintro (⟨other, old, facts⟩ | facts)
    · exact ⟨other, Or.inl old, facts⟩
    · exact ⟨patchpoint, Or.inr rfl, facts⟩

/-- What a careful entry trap keeps. -/
private theorem PatchInvariant.entry
    (invariant : PatchInvariant start m loaded trace before)
    (layout : PatchLayout start) (located : start[index]? = some m)
    (small : ∀ offset word, m.funcOrig.find offset = some word → word < 2 ^ 64)
    (careful : (PatchCall.entry patchpoint).Careful before)
    (returned : patchEntry patchpoint before = .ok after) :
    PatchInvariant start m loaded (trace ++ [.entry patchpoint]) after := by
  obtain ⟨found, original, isFound, aligned, _, saved, rfl⟩ :=
    patchEntry_ok returned
  obtain ⟨foundHolds, i, old, oldThere, oldSame⟩ :=
    findModule_old invariant.modules isFound
  have base := m.baseAligned
  simp only [pageSize] at base
  -- a trap elsewhere leaves the word alone
  have elsewhere : ∀ offset, offset % 8 = 0 →
      m.baseAddr + offset ≠ patchpoint →
        (before.image.store64 patchpoint original).load64
          (m.baseAddr + offset) = before.image.load64 (m.baseAddr + offset) :=
    fun offset isWord other =>
      load64_store64_aligned _ aligned (by omega) other
  -- a trap at the word restores what the module has saved for it
  have here : ∀ offset, offset + 8 ≤ m.sz →
      m.baseAddr + offset = patchpoint →
        m.funcOrig.find offset = some original ∧
          (before.image.store64 patchpoint original).load64
            (m.baseAddr + offset) = original ∧
          ((∀ q ∈ before.patchedRa, m.Holds q →
            (roundUp8 q).addr ≠ m.baseAddr + (offset + 8)) ∨
            original = before.image.load64 (m.baseAddr + offset)) := by
    rintro offset fits rfl
    have own := patchData_of_shared layout located oldThere oldSame foundHolds
      ⟨by omega, by omega⟩
    have guarded := careful found isFound
    simp only [CodeModule.patchData, Prod.mk.injEq] at own
    obtain ⟨baseSame, sizeSame, _, entriesSame⟩ := own
    rw [baseSame, entriesSame, Nat.add_sub_cancel_left] at saved guarded
    refine ⟨saved, load64_store64_same _ _ (small offset original saved), ?_⟩
    rw [saved, Option.some.injEq] at guarded
    refine guarded.imp_left fun spared q member holds => ?_
    refine spared q member ?_
    rw [CodeModule.Holds, baseSame, sizeSame]
    exact holds
  refine ⟨?_, ?_, ?_, ?_, ?_, ?_⟩
  · rw [← invariant.modules]
    exact map_modifyModule _ _ fun _ => rfl
  · intro q holds
    rw [invariant.repeated q holds]
    simp
  · intro q listed
    rcases List.mem_append.mp listed with earlier | last
    · exact invariant.aligned q earlier
    · cases List.mem_singleton.mp last
      exact aligned
  · intro offset isWord fits called
    rw [called_entry] at called
    have old := invariant.called offset isWord fits called
    by_cases same : m.baseAddr + offset = patchpoint
    · obtain ⟨_, restored, spared | unchanged⟩ := here offset fits same
      · obtain ⟨q, listed, holds, rounds⟩ := called
        exact absurd rounds
          (spared q ((invariant.repeated q holds).mpr listed) holds)
      · exact restored.trans (unchanged.trans old)
    · exact (elsewhere offset isWord same).trans old
  · intro offset isWord fits notCalled entered
    rw [called_entry] at notCalled
    rw [entered_entry] at entered
    by_cases same : m.baseAddr + offset = patchpoint
    · obtain ⟨isSaved, restored, _⟩ := here offset fits same
      exact isSaved.trans (congrArg some restored.symm)
    · refine (invariant.entered offset isWord fits notCalled
        (entered.resolve_right same)).trans ?_
      exact congrArg some (elsewhere offset isWord same).symm
  · intro offset isWord fits notCalled notEntered
    rw [called_entry] at notCalled
    rw [entered_entry, not_or] at notEntered
    exact (elsewhere offset isWord notEntered.2).trans
      (invariant.untouched offset isWord fits notCalled notEntered.1)

/-- What a call trap keeps. -/
private theorem PatchInvariant.call
    (invariant : PatchInvariant start m loaded trace before)
    (layout : PatchLayout start) (located : start[index]? = some m)
    (saves : ∀ offset word, m.raOrig.find offset = some word →
      word = loaded.original.load64 (offset - 8))
    (returned : patchCall patchpoint before = .ok after) :
    PatchInvariant start m loaded (trace ++ [.call patchpoint]) after := by
  obtain ⟨found, isFound, ⟨repeated, rfl⟩ | ⟨original, fresh, saved, _, rfl⟩⟩ :=
    patchCall_ok returned
  · -- a repetition
    have known : ∀ offset, Called m (trace ++ [.call patchpoint]) offset ↔
        Called m trace offset := by
      intro offset
      rw [called_call, or_iff_left_of_imp]
      rintro ⟨holds, rounds⟩
      exact ⟨patchpoint, (invariant.repeated patchpoint holds).mp repeated,
        holds, rounds⟩
    refine ⟨invariant.modules, ?_, ?_, ?_, ?_, ?_⟩
    · intro q holds
      rw [invariant.repeated q holds, List.mem_append, List.mem_singleton,
        PatchCall.call.injEq, or_iff_left_of_imp]
      rintro rfl
      exact (invariant.repeated q holds).mp repeated
    · exact fun q listed => invariant.aligned q (by simpa using listed)
    · intro offset isWord fits called
      exact invariant.called offset isWord fits ((known _).mp called)
    · intro offset isWord fits notCalled entered
      exact invariant.entered offset isWord fits
        (fun called => notCalled ((known _).mpr called))
        ((entered_call _).mp entered)
    · intro offset isWord fits notCalled notEntered
      exact invariant.untouched offset isWord fits
        (fun called => notCalled ((known _).mpr called))
        (fun entered => notEntered ((entered_call _).mpr entered))
  · obtain ⟨foundHolds, i, old, oldThere, oldSame⟩ :=
      findModule_old invariant.modules isFound
    have base := m.baseAligned
    simp only [pageSize] at base
    have rounded : patchpoint ≤ (roundUp8 patchpoint).addr ∧
        (roundUp8 patchpoint).addr < patchpoint + 8 ∧
        (roundUp8 patchpoint).addr % 8 = 0 := by
      simp only [roundUp8]
      omega
    have isKey : 8 ≤ (roundUp8 patchpoint).addr - found.baseAddr := by
      have known : (roundUp8 patchpoint).addr - found.baseAddr ∈ old.raOrig := by
        simp only [CodeModule.patchData, Prod.mk.injEq] at oldSame
        rw [oldSame.2.2.1, ← OrdDict.find_isSome, saved]
        rfl
      exact ((layout.inside old (List.mem_of_getElem? oldThere)).calls _ known).1
    -- the trap restores the word before its return address
    have here : ∀ offset, offset + 8 ≤ m.sz →
        m.baseAddr + offset = (roundUp8 patchpoint).addr - 8 →
          m.Holds patchpoint ∧
            (roundUp8 patchpoint).addr = m.baseAddr + (offset + 8) ∧
            original = loaded.original.load64 offset := by
      intro offset fits same
      obtain ⟨low, high⟩ := foundHolds
      have shared : found.Holds (m.baseAddr + offset) :=
        ⟨by omega, by omega⟩
      have own := patchData_of_shared layout located oldThere oldSame shared
        ⟨by omega, by omega⟩
      refine ⟨holds_of_patchData own ⟨low, high⟩, by omega, ?_⟩
      simp only [CodeModule.patchData, Prod.mk.injEq] at own
      have target : (roundUp8 patchpoint).addr - found.baseAddr = offset + 8 := by
        omega
      rw [target, own.2.2.1] at saved
      have word := saves _ _ saved
      rw [Nat.add_sub_cancel] at word
      exact word
    have elsewhere : ∀ offset, offset % 8 = 0 →
        m.baseAddr + offset ≠ (roundUp8 patchpoint).addr - 8 →
          (before.image.store64 ((roundUp8 patchpoint).addr - 8) original).load64
            (m.baseAddr + offset) = before.image.load64 (m.baseAddr + offset) :=
      fun offset isWord other =>
        load64_store64_aligned _ (by omega) (by omega) other
    refine ⟨invariant.modules, ?_, ?_, ?_, ?_, ?_⟩
    · intro q holds
      rw [OrdDict.mem_insertNew, invariant.repeated q holds, List.mem_append,
        List.mem_singleton, PatchCall.call.injEq, or_comm]
    · exact fun q listed => invariant.aligned q (by simpa using listed)
    · intro offset isWord fits called
      by_cases same : m.baseAddr + offset = (roundUp8 patchpoint).addr - 8
      · obtain ⟨_, _, isOriginal⟩ := here offset fits same
        rw [same, isOriginal]
        exact load64_store64_same _ _ (load64_lt _ _)
      · refine (elsewhere offset isWord same).trans
          (invariant.called offset isWord fits ?_)
        refine ((called_call _).mp called).resolve_right fun restores => same ?_
        omega
    · intro offset isWord fits notCalled entered
      rw [called_call, not_or] at notCalled
      rw [elsewhere offset isWord fun same => notCalled.2
        ⟨(here offset fits same).1, (here offset fits same).2.1⟩]
      exact invariant.entered offset isWord fits notCalled.1
        ((entered_call _).mp entered)
    · intro offset isWord fits notCalled notEntered
      rw [called_call, not_or] at notCalled
      rw [elsewhere offset isWord fun same => notCalled.2
        ⟨(here offset fits same).1, (here offset fits same).2.1⟩]
      exact invariant.untouched offset isWord fits notCalled.1
        (fun entered => notEntered ((entered_call _).mpr entered))

end Invariant

section Convergence

variable {patchCallName patchEntryName : Name} {vtabletaken : KeySet Name}
  {bidSlot : Nat} {file : ElfFile} {loaded : LoadedElf} {start state : Runtime}
  {trace : List PatchCall} {m : CodeModule} {index : Nat}

/-- The bytes of equal words are equal. -/
private theorem byte_of_load64
    {first second : ByteMem} {left right : Nat}
    (same : first.load64 left = second.load64 right) {k : Nat} (below : k < 8) :
    first (left + k) = second (right + k) := by
  apply UInt8.toNat_inj.mp
  rw [byte_eq_load _ _ _ below, byte_eq_load _ _ _ below]
  exact congrArg (· / 256 ^ k % 256) same

/-- What is known of the words of a module in every state of a careful run. -/
theorem patchRun_invariant
    (layout : PatchLayout start.modules)
    (located : start.modules[index]? = some m)
    (prepares : loaded.Prepares) (stands : StandsAs m loaded start.image)
    (fresh : ∀ patchpoint ∈ start.patchedRa, ¬ m.Holds patchpoint)
    (run : PatchRun PatchCall.Careful start trace state) :
    PatchInvariant start.modules m loaded trace state := by
  induction run with
  | start =>
      refine ⟨rfl, fun q holds => ⟨fun listed => absurd holds (fresh q listed),
        fun never => (nomatch never)⟩, fun _ never => (nomatch never), ?_, ?_,
        ?_⟩
      · rintro offset _ _ ⟨q, never, _⟩
        cases never
      · intro offset _ _ _ never
        cases never
      · intro offset isWord fits _ _
        refine load_congr_offset fun k below => ?_
        rw [Nat.add_assoc]
        exact stands.bytes (offset + k) (by omega)
  | @step trace before after call run careful returned inductionHypothesis =>
      cases call with
      | entry patchpoint =>
          refine inductionHypothesis.entry layout located ?_ careful returned
          rw [stands.entries]
          exact prepares.small
      | call patchpoint =>
          refine inductionHypothesis.call layout located ?_ returned
          rw [stands.calls]
          exact prepares.calls

/--
Lazy patching converges: in every state of a careful run no restored word is
reverted, and once everything was patched the code is that of the file.
-/
theorem lazy_patching_converges
    (layout : PatchLayout start.modules)
    (located : start.modules[index]? = some m)
    (prepared : loadMcfiMetadata patchCallName patchEntryName vtabletaken bidSlot
      file = .ok loaded)
    (slotsOutside : SlotsOutside file loaded.codeModule)
    (stands : StandsAs m loaded start.image)
    (fresh : ∀ patchpoint ∈ start.patchedRa, ¬ m.Holds patchpoint)
    (run : PatchRun PatchCall.Careful start trace state) :
    Restored m trace loaded state.image ∧
      (AllPatched m trace → ∀ offset < m.sz,
        state.image (m.baseAddr + offset) = loaded.original offset) := by
  have inside := layout.inside m (List.mem_of_getElem? located)
  have prepares : loaded.Prepares := by
    refine loadMcfiMetadata_prepares prepared ⟨?_, ?_, ?_⟩ slotsOutside
    · rw [← stands.calls, ← stands.size]
      exact inside.calls
    · rw [← stands.entries, ← stands.size]
      exact inside.entries
    · rw [← stands.size]
      exact inside.small
  have invariant :=
    patchRun_invariant layout located prepares stands fresh run
  have base := m.baseAligned
  have size := m.sizeAligned
  simp only [pageSize] at base size
  have callWord : ∀ {offset}, Called m trace offset → offset % 8 = 0 := by
    rintro offset ⟨q, _, _, rounds⟩
    have aligned := (roundUp8 q).aligned
    omega
  have entryWord : ∀ {offset}, Entered m trace offset → offset % 8 = 0 := by
    intro offset entered
    have aligned := invariant.aligned _ entered
    omega
  -- an entry that is no pending call site has its word back
  have single : ∀ offset, offset % 8 = 0 → offset + 8 ≤ m.sz →
      Entered m trace offset → ¬ Called m trace (offset + 8) →
      offset + 8 ∉ m.raOrig →
        state.image.load64 (m.baseAddr + offset) =
          loaded.original.load64 offset := by
    intro offset isWord fits entered notCalled notSite
    have saved := invariant.entered offset isWord fits notCalled entered
    rw [stands.entries] at saved
    rw [stands.calls] at notSite
    exact prepares.entries offset _ saved notSite
  refine ⟨⟨?_, ?_, ?_⟩, ?_⟩
  · intro offset known called
    obtain ⟨low, high⟩ := inside.calls offset known
    have isWord := callWord called
    refine invariant.called (offset - 8) (by omega) (by omega) ?_
    rw [Nat.sub_add_cancel low]
    exact called
  · intro offset known entered site
    have isWord := entryWord entered
    have fits := inside.entries offset known
    by_cases called : Called m trace (offset + 8)
    · exact invariant.called offset isWord fits called
    · exact single offset isWord fits entered called
        (site.resolve_right called)
  · intro offset known entered notCalled
    exact invariant.entered offset (entryWord entered)
      (inside.entries offset known) notCalled entered
  · rintro ⟨callsDone, entriesDone⟩ offset below
    obtain ⟨word, k, isWord, small, rfl⟩ : ∃ word k, word % 8 = 0 ∧ k < 8 ∧
        offset = word + k :=
      ⟨offset / 8 * 8, offset % 8, by omega, by omega, by omega⟩
    have fits : word + 8 ≤ m.sz := by omega
    by_cases called : Called m trace (word + 8)
    · rw [← Nat.add_assoc]
      exact byte_of_load64 (invariant.called word isWord fits called) small
    · have notSite : word + 8 ∉ m.raOrig := fun known =>
        called (callsDone _ known)
      rw [← Nat.add_assoc]
      by_cases entered : Entered m trace word
      · exact byte_of_load64
          (single word isWord fits entered called notSite) small
      · -- no patch was ever in this word
        rw [byte_of_load64
          (invariant.untouched word isWord fits called entered) small]
        refine prepares.untouched _ (fun site known => ?_) fun key known => ?_
        · rw [← stands.calls] at known
          have siteWord := callWord (callsDone site known)
          have low := (inside.calls site known).1
          by_contra overlaps
          have same : site = word + 8 := by omega
          exact notSite (same ▸ known)
        · rw [← stands.entries] at known
          have keyWord := entryWord (entriesDone key known)
          by_contra overlaps
          have same : key = word := by omega
          exact entered (same ▸ entriesDone key known)

end Convergence

section Examples

/-- A function with a landing pad that starts with three bytes and a call. -/
def doubleElf : ElfFile where
  sections := { allocCodeModule with
    baseAddr := 0x400000
    sz := 0x1000
    instrumented := true
    baseAligned := programBase_aligned
    sizeAligned := page_aligned }
  ctor := ∅
  symtab := [.dcj (Name.ofPtr 16) 16, .landingPad (Name.ofPtr 32) 24,
    .function (Name.ofPtr 32) 8]
  plt := [⟨Name.ofPtr 48, 0x100⟩, ⟨Name.ofPtr 64, 0x120⟩]
  bytes := fun offset => if offset = 11 then 0xe8 else 0x90

/-- Its entry is a call site too. -/
def doubleLoaded : LoadedElf :=
  (loadMcfiMetadata (Name.ofPtr 48) (Name.ofPtr 64) ∅ bidSlotStart
    doubleElf).toOption.get rfl

/-- The state in which its code starts to run. -/
def doubleStart : Runtime :=
  { Runtime.boot with
    modules := [doubleLoaded.codeModule]
    image := fun addr => doubleLoaded.patched (addr - 0x400000)
    cfggened := true }

/-- The states after its entry, then its call, then its entry are patched. -/
def doubleEntered : Runtime :=
  (patchEntry 0x400008 doubleStart).toOption.get rfl

def doubleCalled : Runtime :=
  (patchCall 0x400010 doubleEntered).toOption.get rfl

def doubleReverted : Runtime :=
  (patchEntry 0x400008 doubleCalled).toOption.get rfl

theorem layout_double : PatchLayout doubleStart.modules where
  apart := by
    intro i j left right leftFound rightFound different
    have first := (List.getElem?_eq_some_iff.mp leftFound).1
    have second := (List.getElem?_eq_some_iff.mp rightFound).1
    change i < 1 at first
    change j < 1 at second
    omega
  inside := by
    intro m member
    cases List.mem_singleton.mp member
    refine ⟨fun offset known => ?_, fun offset known => ?_, by decide⟩
    · cases List.mem_singleton.mp (show offset ∈ [16] from known)
      decide
    · cases List.mem_singleton.mp (show offset ∈ [8] from known)
      decide

theorem prepared_double :
    loadMcfiMetadata (Name.ofPtr 48) (Name.ofPtr 64) ∅ bidSlotStart doubleElf =
      .ok doubleLoaded :=
  rfl

theorem slotsOutside_double : SlotsOutside doubleElf doubleLoaded.codeModule := by
  have none : ∀ name slot, CodeSymbol.bary name slot ∉ doubleElf.symtab := by
    intro name slot listed
    simp [doubleElf] at listed
  exact ⟨fun _ _ name slot listed => absurd listed (none name slot),
    fun _ _ name slot listed => absurd listed (none name slot)⟩

theorem stands_double :
    StandsAs doubleLoaded.codeModule doubleLoaded doubleStart.image where
  size := rfl
  calls := rfl
  entries := rfl
  bytes := by
    intro offset _
    have base : doubleLoaded.codeModule.baseAddr = 0x400000 := rfl
    have place : 0x400000 + offset - 0x400000 = offset := by omega
    rw [base]
    simp only [doubleStart, place]

/-- A stale entry trap reverts the call that was patched out in the same word. -/
theorem stale_entry_reverts :
    ¬ ∀ (patchCallName patchEntryName : Name) (vtabletaken : KeySet Name)
        (bidSlot : Nat) (file : ElfFile) (loaded : LoadedElf)
        (start state : Runtime) (trace : List PatchCall) (m : CodeModule)
        (index : Nat),
      PatchLayout start.modules → start.modules[index]? = some m →
      loadMcfiMetadata patchCallName patchEntryName vtabletaken bidSlot file =
        .ok loaded →
      SlotsOutside file loaded.codeModule → StandsAs m loaded start.image →
      (∀ patchpoint ∈ start.patchedRa, ¬ m.Holds patchpoint) →
      PatchRun (fun _ _ => True) start trace state →
        Restored m trace loaded state.image ∧
          (AllPatched m trace → ∀ offset < m.sz,
            state.image (m.baseAddr + offset) = loaded.original offset) := by
  intro converges
  have run : PatchRun (fun _ _ => True) doubleStart
      [.entry 0x400008, .call 0x400010, .entry 0x400008] doubleReverted :=
    .step (.step (.step .start trivial rfl) trivial rfl) trivial rfl
  have restored := (converges _ _ _ _ _ _ _ _ _ _ 0 layout_double rfl
    prepared_double slotsOutside_double stands_double (fun _ never => nomatch never)
    run).1
  have called : Called doubleLoaded.codeModule
      [.entry 0x400008, .call 0x400010, .entry 0x400008] 16 :=
    ⟨0x400010, by simp, by decide, by decide⟩
  exact absurd (restored.calls 16 (by decide) called) (by decide +kernel)

/-- After one trap each the code is that of the file. -/
theorem lazy_patching_converges_double :
    Restored doubleLoaded.codeModule [.entry 0x400008, .call 0x400010]
        doubleLoaded doubleCalled.image ∧
      ∀ offset < 0x1000,
        doubleCalled.image (0x400000 + offset) =
          doubleLoaded.original offset := by
  have careful : (PatchCall.entry 0x400008).Careful doubleStart :=
    fun _ _ => Or.inl fun _ never => nomatch never
  have run : PatchRun PatchCall.Careful doubleStart
      [.entry 0x400008, .call 0x400010] doubleCalled :=
    .step (.step .start careful rfl) trivial rfl
  have located : doubleStart.modules[0]? = some doubleLoaded.codeModule := rfl
  have converged := lazy_patching_converges layout_double located
    prepared_double slotsOutside_double stands_double
    (fun _ never => nomatch never) run
  refine ⟨converged.1, converged.2 ⟨fun offset known => ?_,
    fun offset known => ?_⟩⟩
  · cases List.mem_singleton.mp (show offset ∈ [16] from known)
    exact ⟨0x400010, by simp, by decide, by decide⟩
  · cases List.mem_singleton.mp (show offset ∈ [8] from known)
    exact List.mem_cons_self

end Examples

end Mcfi
