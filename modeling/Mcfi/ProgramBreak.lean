import Mathlib.Logic.Relation
import Mcfi.Containment

namespace Mcfi

/-!
# The program break

`rock_brk` keeps a reservation of the pages that the heap may grow into, so that
the pager does not give them away.  The reservation ends at `max_brk`; it is
trimmed without moving `max_brk`, and then the heap grows over pages that the
pager takes for free.
-/

section Model

/-- `BRK_LEAP`. -/
def brkLeap : Nat := 0x800000

/-- `CurPage`. -/
def curPage (value : Nat) : Nat :=
  value / pageSize * pageSize

/-- The sandbox with `prog_brk` and `max_brk`, which are zero at first. -/
structure HeapState where
  sandbox : Sandbox
  progBrk : Nat
  maxBrk : Nat

/-- The state before the first `rock_brk`. -/
def HeapState.boot (sandbox : Sandbox) : HeapState :=
  ⟨sandbox, 0, 0⟩

/-- The same, with other regions. -/
def HeapState.withVm (state : HeapState) (vm : Vmmap) : HeapState :=
  { state with sandbox := { state.sandbox with vm := vm } }

/-- `rock_brk`, the first call: ask for the initial break and reserve a leap. -/
def rockBrkInitial (initialBrk : Nat) (state : HeapState) : Rt HeapState :=
  if state.progBrk ≠ 0 then
    .ok state
  else if fourGB ≤ initialBrk then
    .error (.quit
      "[rock_brk] initial program break is outside of sandbox\n")
  else
    .ok
      { state.withVm (vmmapAdd state.sandbox.vm
          (roundToPage initialBrk / pageSize) (brkLeap / pageSize)) with
        progBrk := initialBrk
        maxBrk := roundToPage initialBrk + brkLeap }

/-- `rock_brk`, when the kernel has set the break: move or trim the reservation. -/
def rockBrkMoved (granted : Nat) (state : HeapState) : Rt HeapState :=
  if state.maxBrk < granted then
    let maxBrk := roundToPage granted + brkLeap
    .ok
      { state.withVm (vmmapAdd state.sandbox.vm
          (curPage state.maxBrk / pageSize)
          (sub64 maxBrk state.maxBrk / pageSize)) with
        progBrk := granted
        maxBrk := maxBrk }
  else if brkLeap ≤ sub64 (curPage state.maxBrk) (roundToPage granted) then do
    let vm ← vmmapRemove state.sandbox.vm (roundToPage granted / pageSize)
      (sub64 (curPage state.maxBrk) (roundToPage granted) / pageSize)
    return { state.withVm vm with progBrk := granted }
  else
    .ok { state with progBrk := granted }

/--
`rock_brk`; it returns the new `prog_brk`.  The kernel has answered the two
requests for the break with `initialBrk` and `granted`.
-/
def rockBrk (newbrk : UInt64) (initialBrk granted : Nat) (state : HeapState) :
    Rt HeapState := do
  let state ← rockBrkInitial initialBrk state
  if fourGB ≤ newbrk.toNat then
    .error (.quit "[rock_brk] newbrk is outside of sandbox\n")
  else
    rockBrkMoved granted state

/--
The documented answer of the kernel to a request for the break: the break is
moved to any address from its start on, or it stays where it is.
-/
def BrkAnswer (start current request answer : Nat) : Prop :=
  answer = current ∨ (answer = request ∧ start ≤ request)

/-- A call that the heap takes part in, with the kernel's answers to `rock_brk`. -/
inductive HeapCall where
  | brk (newbrk : UInt64) (initialBrk granted : Nat)
  | mmap (start len : UInt64) (prot flags : UInt32) (fd off : Int)
  | munmap (start len : UInt64)

/-- A call returns, over a break that starts at `start`. -/
inductive HeapStep (start : Nat) (before : HeapState) :
    HeapCall → HeapState → Prop where
  | brk
      {newbrk : UInt64} {initialBrk granted : Nat} {after : HeapState}
      (initial : before.progBrk = 0 → BrkAnswer start start 0 initialBrk)
      (moved : BrkAnswer start
        (if before.progBrk = 0 then start else before.progBrk) newbrk.toNat
        granted)
      (returned : rockBrk newbrk initialBrk granted before = .ok after) :
      HeapStep start before (.brk newbrk initialBrk granted) after
  | mmap
      {base len : UInt64} {prot flags : UInt32} {fd off value : Int}
      {sandbox : Sandbox}
      (returned : (rockMmap base len prot flags fd off
        before.sandbox).Returns (value, sandbox)) :
      HeapStep start before (.mmap base len prot flags fd off)
        { before with sandbox := sandbox }
  | munmap
      {base len : UInt64} {value : Int} {sandbox : Sandbox}
      (returned : (rockMunmap base len before.sandbox).Returns
        (value, sandbox)) :
      HeapStep start before (.munmap base len)
        { before with sandbox := sandbox }

/-- The states that admitted calls reach. -/
def HeapRun (start : Nat) (admits : HeapState → HeapCall → Prop)
    (begin : HeapState) : HeapState → Prop :=
  Relation.ReflTransGen
    (fun before after => ∃ call, admits before call ∧
      HeapStep start before call after) begin

end Model

section Heap

/-- A page of the live heap. -/
def HeapState.HeapPage (start : Nat) (state : HeapState) (page : Nat) : Prop :=
  start ≤ page * pageSize ∧ page * pageSize < state.progBrk

/-- The pager covers the live heap. -/
def HeapCovered (start : Nat) (state : HeapState) : Prop :=
  ∀ page, state.HeapPage start page → state.sandbox.vm.Covers page

/-- No mapping that the pager places meets the live heap. -/
def MappingsOffHeap (start : Nat) (state : HeapState) : Prop :=
  ∀ base len prot flags fd off value after, mapFixed flags = false →
    (rockMmap base len prot flags fd off state.sandbox).Returns
      (value, after) → 0 ≤ value →
        ∀ page, state.HeapPage start page →
          ¬ (value ≤ page * pageSize ∧
            page * pageSize < value + roundToPage len.toNat)

/-- The call itself neither unmaps pages of the heap nor maps over them. -/
def HeapCall.SparesHeap (start : Nat) (before : HeapState) : HeapCall → Prop
  | brk _ _ _ => True
  | mmap base len _ flags _ _ => mapFixed flags →
      ∀ page, before.HeapPage start page →
        ¬ (base.toNat / pageSize ≤ page ∧
          page < base.toNat / pageSize + roundToPage len.toNat / pageSize)
  | munmap base len => ∀ page, before.HeapPage start page →
      ¬ (roundToPage base.toNat / pageSize ≤ page ∧
        page < roundToPage base.toNat / pageSize +
          roundToPage len.toNat / pageSize)

/-- The regions that a `rock_brk` adds to the pager's list. -/
def HeapState.brkAdds (initialBrk granted : Nat) (state : HeapState) :
    List VmmapEntry :=
  let reserved :=
    if state.progBrk = 0 then roundToPage initialBrk + brkLeap
    else state.maxBrk
  (if state.progBrk = 0 then
    [⟨roundToPage initialBrk / pageSize, brkLeap / pageSize⟩] else []) ++
  (if reserved < granted then
    [⟨reserved / pageSize,
      (roundToPage granted + brkLeap - reserved) / pageSize⟩] else [])

/-- No region is there where a `rock_brk` adds its own. -/
def HeapState.AddsFree (initialBrk granted : Nat) (state : HeapState) : Prop :=
  ∀ region ∈ state.brkAdds initialBrk granted,
    state.sandbox.vm.Free region.pageNum region.npages

/-- The pages that the heap grows over, up to `max_brk`, are still reserved. -/
def HeapState.GrowthCovered (granted : Nat) (state : HeapState) : Prop :=
  ∀ page, state.progBrk ≤ page * pageSize → page * pageSize < granted →
    page * pageSize < state.maxBrk → state.sandbox.vm.Covers page

/-- The call keeps the reservation, and reserves pages that are free. -/
def HeapCall.KeepsReserve (before : HeapState) : HeapCall → Prop
  | brk _ initialBrk granted =>
      before.GrowthCovered granted ∧ before.AddsFree initialBrk granted
  | mmap _ _ _ _ _ _ => True
  | munmap _ _ => True

end Heap

section Steps

/-- The pages of user space, which the kernel maps for a process. -/
def addressPages : Nat := 2 ^ 47 / pageSize

/-- The pager's regions do not overlap, and lie in user space. -/
structure Vmmap.Sound (vm : Vmmap) : Prop where
  noOverlap : vm.NoOverlap
  within : vm.Within addressPages

/-- The break lies between its start and the end of the reservation. -/
structure BreakKept (start : Nat) (state : HeapState) : Prop where
  low : start ≤ state.progBrk
  below : state.progBrk ≤ state.maxBrk
  inside : state.progBrk < fourGB
  reserved : state.maxBrk ≤ fourGB + brkLeap
  aligned : state.maxBrk % pageSize = 0

/-- What calls preserve: nothing is reserved yet, or the break lies in its place. -/
structure HeapKept (start : Nat) (state : HeapState) : Prop where
  sound : state.sandbox.vm.Sound
  breakKept : (state.progBrk = 0 ∧ state.maxBrk = 0) ∨ BreakKept start state

variable {start initialBrk granted : Nat} {before initial after : HeapState}

/-- A call that leaves the break alone. -/
theorem HeapKept.withSandbox {sandbox : Sandbox} (kept : HeapKept start before)
    (sound : sandbox.vm.Sound) :
    HeapKept start { before with sandbox := sandbox } where
  sound := sound
  breakKept := kept.breakKept.imp_right fun inPlace =>
    ⟨inPlace.low, inPlace.below, inPlace.inside, inPlace.reserved,
      inPlace.aligned⟩

/-- Rounding up to pages, inside the sandbox. -/
private theorem roundToPage_inside {value : Nat} (inside : value < fourGB) :
    value ≤ roundToPage value ∧ roundToPage value < value + pageSize ∧
      roundToPage value ≤ fourGB ∧ roundToPage value % pageSize = 0 := by
  rw [roundToPage_of_le (by omega)]
  simp only [fourGB, pageSize] at *
  omega

/-- What the first part of a `rock_brk` does. -/
theorem rockBrkInitial_ok
    (returned : rockBrkInitial initialBrk before = .ok initial) :
    (before.progBrk ≠ 0 ∧ initial = before) ∨
      (before.progBrk = 0 ∧ initialBrk < fourGB ∧
        initial = { before.withVm (vmmapAdd before.sandbox.vm
            (roundToPage initialBrk / pageSize) (brkLeap / pageSize)) with
          progBrk := initialBrk
          maxBrk := roundToPage initialBrk + brkLeap }) := by
  unfold rockBrkInitial at returned
  split at returned
  next running =>
    cases returned
    exact Or.inl ⟨running, rfl⟩
  next first =>
    split at returned
    next => cases returned
    next inside =>
      cases returned
      exact Or.inr ⟨not_not.mp first, not_le.mp inside, rfl⟩

/-- Every call but the first moves the break at once. -/
theorem rockBrk_running
    {newbrk : UInt64} (running : before.progBrk ≠ 0)
    (inside : newbrk.toNat < fourGB) :
    rockBrk newbrk initialBrk granted before = rockBrkMoved granted before := by
  rw [rockBrk, rockBrkInitial, if_pos running]
  exact if_neg (not_le.mpr inside)

/-- The heap after the first part of a `rock_brk`. -/
structure InitialKept (start granted : Nat) (before initial : HeapState) :
    Prop where
  sound : initial.sandbox.vm.Sound
  breakKept : BreakKept start initial
  free : initial.maxBrk < granted →
    initial.sandbox.vm.Free (initial.maxBrk / pageSize)
      ((roundToPage granted + brkLeap - initial.maxBrk) / pageSize)
  covered : HeapCovered start before → HeapCovered start initial
  growth : initial.GrowthCovered granted ↔ before.GrowthCovered granted
  current : initial.progBrk =
    if before.progBrk = 0 then start else before.progBrk

/-- The first part reserves a leap behind the initial break. -/
theorem initialKept
    (kept : HeapKept start before) (positive : 0 < start)
    (answer : before.progBrk = 0 → BrkAnswer start start 0 initialBrk)
    (free : before.AddsFree initialBrk granted)
    (returned : rockBrkInitial initialBrk before = .ok initial) :
    InitialKept start granted before initial := by
  rcases rockBrkInitial_ok returned with ⟨running, rfl⟩ | ⟨first, inside, rfl⟩
  · have breakKept : BreakKept start initial :=
      kept.breakKept.resolve_left fun idle => running idle.1
    refine ⟨kept.sound, breakKept, fun past => ?_, id, Iff.rfl, ?_⟩
    · apply free ⟨_, _⟩
      simp [HeapState.brkAdds, running, past]
    · rw [if_neg running]
  · have startIs : initialBrk = start := by
      rcases answer first with same | ⟨_, low⟩
      · exact same
      · omega
    subst startIs
    obtain ⟨low, high, top, aligned⟩ := roundToPage_inside inside
    have reservedFree : before.sandbox.vm.Free
        (roundToPage initialBrk / pageSize) (brkLeap / pageSize) := by
      apply free ⟨_, _⟩
      simp [HeapState.brkAdds, first]
    have leapCovers : ∀ page, initialBrk ≤ page * pageSize →
        page * pageSize < roundToPage initialBrk + brkLeap →
          Vmmap.Covers (vmmapAdd before.sandbox.vm
            (roundToPage initialBrk / pageSize) (brkLeap / pageSize)) page := by
      intro page fromStart toLeap
      refine covers_vmmapAdd.mpr (Or.inr ⟨?_, ?_⟩) <;>
        simp only [brkLeap, pageSize] at * <;> omega
    refine ⟨⟨?_, ?_⟩, ⟨le_refl _, ?_, inside, ?_, ?_⟩, ?_, ?_, ?_, ?_⟩
    · exact vmmapAdd_noOverlap kept.sound.noOverlap (by decide) reservedFree
    · apply vmmapAdd_within kept.sound.within
      simp only [addressPages, brkLeap, fourGB, pageSize] at *
      omega
    · exact Nat.le_add_right_of_le low
    · exact Nat.add_le_add_right top _
    · simp only [brkLeap, pageSize] at *
      omega
    · intro past page fromMax toEnd covered
      simp only [HeapState.withVm] at past fromMax toEnd covered
      rcases covers_vmmapAdd.mp covered with old | new
      · refine free ⟨_, _⟩ ?_ page fromMax toEnd old
        simp [HeapState.brkAdds, first, past]
      · simp only [brkLeap, pageSize] at *
        omega
    · rintro _ page ⟨fromStart, toBreak⟩
      exact absurd fromStart (not_le.mpr toBreak)
    · refine ⟨fun _ page _ _ never => ?_, fun _ page fromStart _ toMax =>
        leapCovers page fromStart toMax⟩
      rcases kept.breakKept with ⟨_, noMax⟩ | breakKept
      · rw [noMax] at never
        exact absurd never (Nat.not_lt_zero _)
      · exact absurd (positive.trans_le breakKept.low) (by rw [first]; decide)
    · rw [if_pos first]

/-- The heap after a `rock_brk`. -/
structure MovedKept (start granted : Nat) (initial after : HeapState) :
    Prop where
  sound : after.sandbox.vm.Sound
  breakKept : BreakKept start after
  progBrkIs : after.progBrk = granted
  covers : ∀ page, page * pageSize < granted →
    (after.sandbox.vm.Covers page ↔
      initial.sandbox.vm.Covers page ∨ initial.maxBrk ≤ page * pageSize)

/-- Moving or trimming the reservation, when the break has been set. -/
theorem movedKept
    (sound : initial.sandbox.vm.Sound) (breakKept : BreakKept start initial)
    (low : start ≤ granted) (inside : granted < fourGB)
    (free : initial.maxBrk < granted →
      initial.sandbox.vm.Free (initial.maxBrk / pageSize)
        ((roundToPage granted + brkLeap - initial.maxBrk) / pageSize))
    (returned : rockBrkMoved granted initial = .ok after) :
    MovedKept start granted initial after := by
  obtain ⟨rounded, high, top, roundedAligned⟩ := roundToPage_inside inside
  have reserved := breakKept.reserved
  have aligned := breakKept.aligned
  have curPageIs : curPage initial.maxBrk = initial.maxBrk := by
    simp only [curPage, pageSize] at *
    omega
  unfold rockBrkMoved at returned
  split at returned
  next past =>
    simp only [curPageIs] at returned
    rw [sub64_of_le (by simp only [fourGB, brkLeap] at *; omega) (by omega)]
      at returned
    cases returned
    refine ⟨⟨?_, ?_⟩, ⟨low, ?_, inside, ?_, ?_⟩, rfl, fun page toBreak => ?_⟩
    · refine vmmapAdd_noOverlap sound.noOverlap ?_ (free past)
      simp only [brkLeap, pageSize] at *
      omega
    · apply vmmapAdd_within sound.within
      simp only [addressPages, brkLeap, fourGB, pageSize] at *
      omega
    · exact Nat.le_add_right_of_le rounded
    · exact Nat.add_le_add_right top _
    · simp only [brkLeap, pageSize] at *
      omega
    · refine covers_vmmapAdd.trans (or_congr_right ?_)
      simp only [brkLeap, pageSize] at *
      omega
  next notPast =>
    split at returned
    next trims =>
      rw [bind_eq_ok] at returned
      obtain ⟨vm, removed, same⟩ := returned
      cases same
      have keeps := covers_vmmapRemove sound.noOverlap removed
      refine ⟨⟨vmmapUpdate_noOverlap sound.noOverlap removed,
        vmmapUpdate_within sound.noOverlap sound.within removed
          fun absurdly => by cases absurdly⟩,
        ⟨low, not_lt.mp notPast, inside, reserved, aligned⟩, rfl,
        fun page toBreak => ?_⟩
      refine (keeps page).trans ?_
      simp only [pageSize] at *
      constructor
      · exact fun covered => Or.inl covered.1
      · rintro (covered | absurdly)
        · exact ⟨covered, by omega⟩
        · omega
    next =>
      cases returned
      refine ⟨sound, ⟨low, not_lt.mp notPast, inside, reserved, aligned⟩, rfl,
        fun page toBreak => ?_⟩
      constructor
      · exact Or.inl
      · rintro (covered | absurdly)
        · exact covered
        · omega

/-- The two parts of a `rock_brk` that reserves free pages. -/
theorem brk_stages
    {newbrk : UInt64} (kept : HeapKept start before) (positive : 0 < start)
    (free : before.AddsFree initialBrk granted)
    (step : HeapStep start before (.brk newbrk initialBrk granted) after) :
    ∃ initial, InitialKept start granted before initial ∧
      MovedKept start granted initial after := by
  cases step with
  | brk answer moved returned =>
      unfold rockBrk at returned
      rw [bind_eq_ok] at returned
      obtain ⟨initial, first, returned⟩ := returned
      split at returned
      next => cases returned
      next newInside =>
        have initially := initialKept kept positive answer free first
        have low : start ≤ granted ∧ granted < fourGB := by
          have inPlace := initially.breakKept
          rw [← initially.current] at moved
          rcases moved with rfl | ⟨rfl, low⟩
          · exact ⟨inPlace.low, inPlace.inside⟩
          · exact ⟨low, not_le.mp newInside⟩
        exact ⟨initial, initially, movedKept initially.sound initially.breakKept
          low.1 low.2 initially.free returned⟩

/-- A `rock_brk` that reserves free pages keeps the regions apart. -/
theorem heapKept_brk
    {newbrk : UInt64} (kept : HeapKept start before) (positive : 0 < start)
    (free : before.AddsFree initialBrk granted)
    (step : HeapStep start before (.brk newbrk initialBrk granted) after) :
    HeapKept start after := by
  obtain ⟨_, _, moved⟩ := brk_stages kept positive free step
  exact ⟨moved.sound, Or.inr moved.breakKept⟩

/--
A `rock_brk` that reserves free pages keeps the heap covered exactly when the
pages that it grows over, up to `max_brk`, are still reserved.
-/
theorem heapCovered_brk_iff
    {newbrk : UInt64} (kept : HeapKept start before) (positive : 0 < start)
    (free : before.AddsFree initialBrk granted)
    (covered : HeapCovered start before)
    (step : HeapStep start before (.brk newbrk initialBrk granted) after) :
    HeapCovered start after ↔ before.GrowthCovered granted := by
  obtain ⟨initial, initially, moved⟩ := brk_stages kept positive free step
  rw [← initially.growth]
  constructor
  · intro coveredAfter page fromBreak toGranted toMax
    have heapPage : after.HeapPage start page :=
      ⟨initially.breakKept.low.trans fromBreak, moved.progBrkIs ▸ toGranted⟩
    rcases (moved.covers page toGranted).mp (coveredAfter page heapPage) with
      old | past
    · exact old
    · exact absurd toMax (not_lt.mpr past)
  · rintro growth page ⟨fromStart, toBreak⟩
    rw [moved.progBrkIs] at toBreak
    apply (moved.covers page toBreak).mpr
    by_cases old : page * pageSize < initial.progBrk
    · exact Or.inl (initially.covered covered page ⟨fromStart, old⟩)
    · by_cases past : initial.maxBrk ≤ page * pageSize
      · exact Or.inr past
      · exact Or.inl (growth page (not_lt.mp old) toBreak (not_le.mp past))

/-- A mapping or an unmapping keeps the regions apart. -/
theorem heapKept_step
    {call : HeapCall} (kept : HeapKept start before) (positive : 0 < start)
    (free : ∀ newbrk initialBrk granted, call = .brk newbrk initialBrk granted →
      before.AddsFree initialBrk granted)
    (step : HeapStep start before call after) : HeapKept start after := by
  cases step with
  | brk answer moved returned =>
      exact heapKept_brk kept positive (free _ _ _ rfl)
        (.brk answer moved returned)
  | mmap returned =>
      have sound := @sound_rockMmap _ _ _ _ _ _ _ _ _ addressPages (by decide)
        (by decide) kept.sound.noOverlap kept.sound.within returned
      exact kept.withSandbox ⟨sound.1, sound.2⟩
  | munmap returned =>
      have sound := sound_rockMunmap kept.sound.noOverlap kept.sound.within
        returned
      exact kept.withSandbox ⟨sound.1, sound.2⟩

/-- A call that spares the heap and keeps the reservation keeps the heap covered. -/
theorem heapCovered_step
    {call : HeapCall} (kept : HeapKept start before) (positive : 0 < start)
    (covered : HeapCovered start before)
    (spares : call.SparesHeap start before) (keeps : call.KeepsReserve before)
    (step : HeapStep start before call after) : HeapCovered start after := by
  cases step with
  | brk answer moved returned =>
      exact (heapCovered_brk_iff kept positive keeps.2 covered
        (.brk answer moved returned)).mpr keeps.1
  | mmap returned =>
      intro page heapPage
      rcases returns_rockMmap returned with rfl | ⟨_, _, _, _, added, rfl⟩
      · exact covered page heapPage
      · apply (covers_vmmapAddWithOverwrite kept.sound.noOverlap added page).mpr
        exact Or.inl (covered page heapPage)
  | munmap returned =>
      intro page heapPage
      rcases returns_rockMunmap returned with rfl | ⟨_, _, _, removed, rfl⟩
      · exact covered page heapPage
      · apply (covers_vmmapRemove kept.sound.noOverlap removed page).mpr
        exact ⟨covered page heapPage, spares page heapPage⟩

/-- The pager's place for a mapping holds no page that is covered. -/
theorem placed_free
    {sandbox after : Sandbox} {base len : UInt64} {prot flags : UInt32}
    {fd off value : Int} (sound : sandbox.vm.Sound)
    (notFixed : mapFixed flags = false)
    (returned : (rockMmap base len prot flags fd off sandbox).Returns
      (value, after))
    (succeeded : 0 ≤ value) :
    ∃ page, value = (page * pageSize : Nat) ∧
      sandbox.vm.Free page (roundToPage len.toNat / pageSize) := by
  rcases rockMmap_outcome returned with ⟨_, negative | ⟨heap, found⟩⟩ |
    ⟨page, _, rfl, nonempty, chosen, issued, _⟩
  · omega
  · have fixed := (fixedInHeap_some found).1
    rw [notFixed] at fixed
    cases fixed
  · rw [issues_rockMmap] at issued
    obtain ⟨_, _, lenBelow, _⟩ := issued
    have gap := mmapPage_some sound.noOverlap sound.within (by decide) chosen
    rw [notFixed] at gap
    have fits := gap.2.fits
    refine ⟨page, ?_, gap.2.free⟩
    rw [Nat.mod_eq_of_lt]
    rw [roundToPage_of_le (by omega)] at fits
    simp only [addressPages, pageSize, fourGB] at *
    omega

/-- The pager places no mapping on a heap that it covers. -/
theorem mappingsOffHeap
    (sound : before.sandbox.vm.Sound) (covered : HeapCovered start before) :
    MappingsOffHeap start before := by
  intro base len prot flags fd off value after notFixed returned succeeded page
    heapPage meets
  obtain ⟨placed, rfl, free⟩ := placed_free sound notFixed returned succeeded
  have lenBelow : roundToPage len.toNat % pageSize = 0 := Nat.mul_mod_left _ _
  refine free page ?_ ?_ (covered page heapPage) <;>
    simp only [pageSize] at * <;> omega

end Steps

section Runs

variable {start : Nat} {sandbox : Sandbox} {state : HeapState}

/--
In every run whose calls spare the heap, whose `rock_brk`s grow the heap over
pages that are still reserved and reserve pages that are free, the pager covers
the live heap and places no mapping on it.
-/
theorem heap_never_mapped
    (positive : 0 < start) (sound : sandbox.vm.Sound)
    (run : HeapRun start
      (fun before call => call.SparesHeap start before ∧
        call.KeepsReserve before) (.boot sandbox) state) :
    HeapCovered start state ∧ MappingsOffHeap start state := by
  have kept : HeapKept start state ∧ HeapCovered start state := by
    induction run with
    | refl =>
        refine ⟨⟨sound, Or.inl ⟨rfl, rfl⟩⟩, ?_⟩
        rintro page ⟨_, never⟩
        exact absurd never (Nat.not_lt_zero _)
    | tail _ step inductionHypothesis =>
        obtain ⟨call, admitted, step⟩ := step
        obtain ⟨kept, covered⟩ := inductionHypothesis
        refine ⟨heapKept_step kept positive ?_ step, heapCovered_step kept
          positive covered admitted.1 admitted.2 step⟩
        rintro newbrk initialBrk granted rfl
        exact admitted.2.2
  exact ⟨kept.2, mappingsOffHeap kept.1.sound kept.2⟩

end Runs

section Examples

namespace BreakExample

/-- The program asks where its break is. -/
def asked : HeapState :=
  ⟨allocSandbox, 0x1000000, 0x1800000⟩

/-- Then it moves its break by one page. -/
def grown : HeapState :=
  ⟨allocSandbox, 0x1001000, 0x1800000⟩

theorem sound_allocSandbox : allocSandbox.vm.Sound :=
  ⟨wellFormed_allocSandbox.noOverlap, fun entry member =>
    (wellFormed_allocSandbox.within entry member).trans (by decide)⟩

/-- Asking for the break trims the whole reservation. -/
theorem step_asked :
    HeapStep 0x1000000 (.boot allocSandbox) (.brk 0 0x1000000 0x1000000) asked :=
  .brk (fun _ => Or.inl rfl) (Or.inl rfl) rfl

/-- The break may be moved as far as `max_brk` all the same. -/
theorem step_grown :
    HeapStep 0x1000000 asked (.brk 0x1001000 0 0x1001000) grown := by
  refine .brk (fun never => absurd never (by decide))
    (Or.inr ⟨by decide, by decide⟩) ?_
  rw [rockBrk_running (by decide) (by decide), rockBrkMoved,
    if_neg (by decide), if_neg (by decide)]
  rfl

/-- A mapping near the break is placed on the heap. -/
theorem mapped_grown :
    ∃ sandbox, (rockMmap 0x1000000 0x1000 3 0x22 (-1) 0 grown.sandbox).Returns
      (0x1000000, sandbox) := by
  obtain ⟨vm, added⟩ := vmmapAddWithOverwrite_ok grown.sandbox.vm 0x1000
    (by decide : 0 < roundToPage (0x1000 : UInt64).toNat / pageSize)
  exact ⟨_, rockMmap_granted (by decide) (by decide)
    (by decide) (by decide) (by decide) (by decide) (by decide) (by decide)
    (by decide) added⟩

/-- There is room for a reservation. -/
theorem addsFree_boot :
    (HeapState.boot allocSandbox).AddsFree 0x1000000 0x1001000 := by
  intro region listed page low high covered
  have regionIs : region = ⟨0x1000, 0x800⟩ := List.mem_singleton.mp listed
  subst regionIs
  obtain ⟨entry, member, inside⟩ := covered
  simp only [HeapState.boot, allocSandbox, List.mem_cons, List.not_mem_nil,
    or_false] at member
  rcases member with rfl | rfl <;>
    simp only [Spans.Inside, VmmapEntry.endPage] at * <;> omega

/-- The reservation of a program that moves its break at once. -/
def reserved : HeapState :=
  ⟨⟨vmmapAdd allocSandbox.vm 0x1000 0x800, []⟩, 0x1001000, 0x1800000⟩

theorem step_reserved :
    HeapStep 0x1000000 (.boot allocSandbox) (.brk 0x1001000 0x1000000 0x1001000)
      reserved :=
  .brk (fun _ => Or.inl rfl) (Or.inr ⟨by decide, by decide⟩) rfl

end BreakExample

open BreakExample in
/-- The pager gives the heap away after the program has asked for its break. -/
theorem heap_given_away :
    ¬ ∀ state, HeapRun 0x1000000
        (fun before call => call.SparesHeap 0x1000000 before)
        (.boot allocSandbox) state →
      HeapCovered 0x1000000 state ∧ MappingsOffHeap 0x1000000 state := by
  intro holds
  have run : HeapRun 0x1000000
      (fun before call => call.SparesHeap 0x1000000 before)
      (.boot allocSandbox) grown :=
    (Relation.ReflTransGen.single
      ⟨.brk 0 0x1000000 0x1000000, trivial, step_asked⟩).tail
        ⟨.brk 0x1001000 0 0x1001000, trivial, step_grown⟩
  obtain ⟨sandbox, returned⟩ := mapped_grown
  exact (holds grown run).2 _ _ _ _ _ _ _ _ (by decide) returned (by decide)
    0x1000 ⟨by decide, by decide⟩ ⟨by decide, by decide⟩

open BreakExample in
/-- A program that moves its break at once keeps its reservation. -/
theorem heap_never_mapped_grown :
    HeapCovered 0x1000000 reserved ∧ MappingsOffHeap 0x1000000 reserved := by
  have growth : (HeapState.boot allocSandbox).GrowthCovered 0x1001000 :=
    fun _ _ _ never => absurd never (Nat.not_lt_zero _)
  exact heap_never_mapped (by decide) sound_allocSandbox
    (.single ⟨.brk 0x1001000 0x1000000 0x1001000,
      ⟨trivial, growth, addsFree_boot⟩, step_reserved⟩)

end Examples

end Mcfi
