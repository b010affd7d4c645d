import Mcfi.EntryReturns

namespace Mcfi

open X86

/-!
# The entries refine the system of threads

The system of threads raises `IN_SYSCALL`, counts the escape and clears the flag in one step
each, and takes the lock as held while an update goes on.  The instructions of the entries
do no more: in every interleaving each of them is one of these steps or changes nothing that
the system shows.
-/

section Counting

variable {front back code : List Instr} {scratchreg : Reg} {pc : Nat} {instr : Instr}
  {start m : Machine}

/-- Instructions that do not write the count. -/
def SparesEscapes (code : List Instr) : Prop :=
  ∀ instr ∈ code, instr.Spares 0x100 tcbThreadEscapes (tcbThreadEscapes + 8)

/-- An instruction that does not write the count does not count. -/
theorem countsEscape_of_spares
    (spares : instr.Spares 0x100 tcbThreadEscapes (tcbThreadEscapes + 8)) :
    countsEscape instr = false := by
  cases instr with
  | store64 dst src =>
      rw [countsEscape, beq_eq_false_iff_ne]
      rintro rfl
      obtain ⟨_, _, apart⟩ := spares.2 (atFs tcbThreadEscapes, 8) rfl
      revert apart
      decide
  | _ => rfl

theorem any_countsEscape (spares : SparesEscapes code) : code.any countsEscape = false := by
  rw [List.any_eq_false]
  intro instr listed
  rw [countsEscape_of_spares (spares instr listed)]
  exact Bool.false_ne_true

/-- The count of a thread. -/
def escapesOf (m : Machine) : Nat :=
  m.mem.load (m.fsBase + tcbThreadEscapes) 8

theorem escapesOf_congr {other : Machine} (same : SameWithin 0x8 0x100 m other) :
    escapesOf other = escapesOf m := by
  rw [escapesOf, same.fsBase, same.load (by decide) (by decide), escapesOf]

/-- An instruction that does not write the count. -/
theorem escapesOf_exec (spares : instr.Spares 0x100 tcbThreadEscapes (tcbThreadEscapes + 8))
    (high : m.fsBase + 0x10000 < 2 ^ 64) : escapesOf (instr.exec m) = escapesOf m := by
  have alone : SparesEscapes [instr] := fun other listed => by
    rw [List.mem_singleton.mp listed]
    exact spares
  rw [escapesOf, fsBase_exec]
  exact load_run_spared alone (by omega) (Nat.le_refl _) (Nat.le_refl _)

/-- What an instruction of a sequence does to the count. -/
def CountEffect (code : List Instr) (pc : Nat) (instr : Instr) (m : Machine) : Prop :=
  if countsEscape instr then
    (code.take pc).any countsEscape = false ∧
      escapesOf (instr.exec m) = (escapesOf m + 1) % 2 ^ 64
  else escapesOf (instr.exec m) = escapesOf m

theorem countEffect_of_spares
    (spares : instr.Spares 0x100 tcbThreadEscapes (tcbThreadEscapes + 8))
    (high : m.fsBase + 0x10000 < 2 ^ 64) : CountEffect code pc instr m := by
  rw [CountEffect, countsEscape_of_spares spares]
  exact escapesOf_exec spares high

/-- A sequence that counts an escape once does so in one instruction. -/
theorem countEffect_of_once (once : code = front ++ atomicIncrThreadEscapes scratchreg ++ back)
    (spares : SparesEscapes (front ++ back)) (fetched : code[pc]? = some instr)
    (same : SameWithin 0x8 0x100 (run (code.take pc) start) m)
    (high : m.fsBase + 0x10000 < 2 ^ 64) : CountEffect code pc instr m := by
  have inFront : ∀ other ∈ front, other.Spares 0x100 tcbThreadEscapes (tcbThreadEscapes + 8) :=
    fun other listed => spares other (List.mem_append_left back listed)
  rw [once, List.append_assoc] at fetched
  rcases Nat.lt_or_ge pc front.length with early | late
  · rw [List.getElem?_append_left early] at fetched
    exact countEffect_of_spares (inFront instr (List.mem_of_getElem? fetched)) high
  · rw [List.getElem?_append_right late] at fetched
    obtain ⟨rest, rfl⟩ := Nat.exists_eq_add_of_le late
    rw [Nat.add_sub_cancel_left] at fetched
    have noRead : ∀ other ∈ [Instr.load64 scratchreg (atFs tcbThreadEscapes),
        .add64 scratchreg 1], other.Spares 0x100 tcbThreadEscapes (tcbThreadEscapes + 8) := by
      intro other listed
      rcases List.mem_pair.mp listed with rfl | rfl
      · exact ⟨rfl, by rintro used ⟨⟩⟩
      · exact ⟨rfl, by rintro used ⟨⟩⟩
    rcases rest with _ | _ | _ | rest
    · obtain rfl := Option.some.inj fetched
      exact countEffect_of_spares (noRead _ (List.mem_cons_self ..)) high
    · obtain rfl := Option.some.inj fetched
      exact countEffect_of_spares (noRead _ (List.mem_cons_of_mem _ List.mem_cons_self)) high
    · obtain rfl := Option.some.inj fetched
      -- the third instruction stores the sum of what the first one has loaded
      have taken : code.take (front.length + 2) = front ++
          [.load64 scratchreg (atFs tcbThreadEscapes), .add64 scratchreg 1] := by
        rw [once, List.append_assoc, List.take_length_add_append]
        rfl
      have isCount : countsEscape (.store64 (atFs tcbThreadEscapes) scratchreg) = true :=
        beq_self_eq_true _
      rw [taken] at same
      have base : (run front start).fsBase = m.fsBase := by
        rw [same.fsBase, fsBase_run, fsBase_run]
      have before : escapesOf m = escapesOf (run front start) := by
        rw [escapesOf_congr same, run_append]
        rfl
      have within : (Instr.store64 (atFs tcbThreadEscapes) scratchreg).Within 0x8 0x100 :=
        ⟨rfl, by rintro used ⟨⟩, by rintro used ⟨⟩; decide⟩
      have after := same.exec within (by rw [← same.fsBase]; omega)
      have sum : escapesOf (run (atomicIncrThreadEscapes scratchreg) (run front start)) =
          (escapesOf (run front start) + 1) % 2 ^ 64 := by
        rw [escapesOf, fsBase_run]
        exact load_atomicIncr (by rw [base]; exact high) scratchreg
      rw [CountEffect, isCount, taken]
      refine ⟨?_, ?_⟩
      · rw [List.any_append, any_countsEscape inFront, any_countsEscape noRead]
        rfl
      · rw [escapesOf_congr after, before, ← sum, run_append]
        rfl
    · have inBack : instr ∈ back := List.mem_of_getElem? fetched
      exact countEffect_of_spares (spares instr (List.mem_append_right front inBack)) high

end Counting

section Stages

variable {code : CCode} {layout : EntryLayout} {before after : EntrySystem} {index : Nat}
  {thread next : EntryThread} {escape : Escape} {entered released m other : Machine} {pc : Nat}
  {instr : Instr}

/-- The instructions of an entry count an escape once. -/
theorem countEffect_enter (fetched : escape.enter[pc]? = some instr)
    (same : SameWithin 0x8 0x100 (run (escape.enter.take pc) entered) m)
    (high : m.fsBase + 0x10000 < 2 ^ 64) : CountEffect escape.enter pc instr m := by
  cases escape with
  | function func =>
      obtain ⟨front, back, once, spares⟩ := enter_counts func
      exact countEffect_of_once once spares fetched same high
  | syscall =>
      have spares : SparesEscapes Escape.syscall.enter := by
        unfold SparesEscapes
        decide
      exact countEffect_of_spares (spares instr (List.mem_of_getElem? fetched)) high

theorem countEffect_leave (fetched : escape.leave[pc]? = some instr)
    (same : SameWithin 0x8 0x100 (run (escape.leave.take pc) released) m)
    (high : m.fsBase + 0x10000 < 2 ^ 64) : CountEffect escape.leave pc instr m := by
  cases escape with
  | function func =>
      exact countEffect_of_spares
        (leave_spares_escapes func instr (List.mem_of_getElem? fetched)) high
  | syscall =>
      have spares : SparesEscapes ([] ++ [.storeImm8 (atFs tcbInSyscall) 0]) := by
        unfold SparesEscapes
        decide
      have once : Escape.syscall.leave = [] ++ atomicIncrThreadEscapes .r11 ++
          [.storeImm8 (atFs tcbInSyscall) 0] := rfl
      exact countEffect_of_once once spares fetched same high

/-- The way into the runtime counts, and that to the kernel does not. -/
theorem any_enter : escape.enter.any countsEscape = true ↔ escape ≠ .syscall := by
  rcases escape with (_ | _) | _ <;> decide

/-- The stage behind an instruction of the way in. -/
theorem stage_afterEnter (positive : 0 < pc) (inside : pc ≤ escape.enter.length) :
    (escape.afterEnter entered pc).stage = stageBehind (escape.enter.take pc) := by
  unfold Escape.afterEnter
  split
  next => rfl
  next last =>
    have notEmpty : escape.enter ≠ [] := by
      rw [← List.length_pos_iff]
      omega
    rw [List.take_of_length_le (by omega), stageBehind, if_neg notEmpty]
    cases escape with
    | function func =>
        have counts := any_enter.mpr (show Escape.function func ≠ .syscall by rintro ⟨⟩)
        rw [if_pos counts]
        rfl
    | syscall => rfl

/-- The stage behind an instruction of the way out. -/
theorem stage_afterLeave : (escape.afterLeave entered pc).stage =
    if pc < escape.leave.length then stageBehind (escape.enter ++ escape.leave.take pc)
    else .sandbox := by
  unfold Escape.afterLeave
  split
  next => rfl
  next => cases escape <;> rfl

/-- What a step does to the stage of its thread and to its count. -/
inductive StageEffect (before after : Stage) (escapes now : Nat) : Prop where
  | stays (stage : after = before) (count : now = escapes)
  | enters (was : before = .sandbox) (stage : after = .entered) (count : now = escapes)
  | counts (was : before = .entered) (stage : after = .counted)
      (count : now = (escapes + 1) % 2 ^ 64)
  | leaves (was : before = .counted) (stage : after = .sandbox) (count : now = escapes)

/-- One more instruction behind others that have raised the flag. -/
private theorem stageEffect_of_count {code : List Instr} (notEmpty : code ≠ [])
    {escapes now : Nat} (effect : if countsEscape instr then
      code.any countsEscape = false ∧ now = (escapes + 1) % 2 ^ 64 else now = escapes) :
    StageEffect (stageBehind code) (stageBehind (code ++ [instr])) escapes now := by
  have longer : code ++ [instr] ≠ [] := List.append_ne_nil_of_left_ne_nil notEmpty _
  have anyMore : (code ++ [instr]).any countsEscape =
      (code.any countsEscape || countsEscape instr) := by
    rw [List.any_append, List.any_cons, List.any_nil, Bool.or_false]
  rw [stageBehind, stageBehind, if_neg notEmpty, if_neg longer, anyMore]
  cases isCount : countsEscape instr with
  | true =>
      rw [isCount, if_pos rfl] at effect
      rw [effect.1]
      exact .counts rfl rfl effect.2
  | false =>
      rw [isCount] at effect
      rw [Bool.or_false]
      exact .stays rfl effect

/-- The way in. -/
theorem stageEffect_enter (fetched : escape.enter[pc]? = some instr)
    (same : SameWithin 0x8 0x100 (run (escape.enter.take pc) entered) m)
    (high : m.fsBase + 0x10000 < 2 ^ 64) :
    StageEffect (stageBehind (escape.enter.take pc))
      (escape.afterEnter entered (pc + 1)).stage (escapesOf m)
      (escapesOf (instr.exec m)) := by
  have effect := countEffect_enter fetched same high
  have below := (List.getElem?_eq_some_iff.mp fetched).1
  rw [stage_afterEnter (Nat.succ_pos pc) below, List.take_add_one, fetched]
  cases pc with
  | zero =>
      obtain ⟨rest, isEnter, _⟩ := enter_flag escape
      rw [isEnter] at fetched
      obtain rfl := Option.some.inj fetched
      exact .enters rfl rfl effect
  | succ pc =>
      have notEmpty : escape.enter.take (pc + 1) ≠ [] := by
        rw [← List.length_pos_iff, List.length_take]
        omega
      exact stageEffect_of_count notEmpty effect

/-- The way out. -/
theorem stageEffect_leave (fetched : escape.leave[pc]? = some instr)
    (same : SameWithin 0x8 0x100 (run (escape.leave.take pc) released) m)
    (high : m.fsBase + 0x10000 < 2 ^ 64) :
    StageEffect (stageBehind (escape.enter ++ escape.leave.take pc))
      (escape.afterLeave entered (pc + 1)).stage (escapesOf m)
      (escapesOf (instr.exec m)) := by
  have effect := countEffect_leave fetched same high
  have below := (List.getElem?_eq_some_iff.mp fetched).1
  have notEmpty : escape.enter ++ escape.leave.take pc ≠ [] := by
    obtain ⟨rest, isEnter, _⟩ := enter_flag escape
    rw [isEnter]
    exact List.cons_ne_nil _ _
  rw [stage_afterLeave]
  split
  next more =>
    rw [List.take_add_one, fetched, Option.toList_some, ← List.append_assoc]
    refine stageEffect_of_count notEmpty ?_
    rw [CountEffect] at effect
    split
    next counts =>
      rw [if_pos counts] at effect
      have notFunction : escape = .syscall := by
        cases escape with
        | syscall => rfl
        | function func =>
            have spares := leave_spares_escapes func instr (List.mem_of_getElem? fetched)
            rw [countsEscape_of_spares spares] at counts
            cases counts
      subst notFunction
      refine ⟨?_, effect.2⟩
      rw [List.any_append, effect.1]
      rfl
    next silent =>
      rw [if_neg silent] at effect
      exact effect
  next last =>
    obtain ⟨front, isLeave, _⟩ := leave_flag escape
    have length : escape.leave.length = front.length + 1 := by
      rw [isLeave, List.length_append, List.length_singleton]
    have atLast : pc = front.length := by omega
    have isClear : instr = .storeImm8 (atFs tcbInSyscall) 0 := by
      rw [isLeave, atLast, List.getElem?_append_right (Nat.le_refl _), Nat.sub_self] at fetched
      exact (Option.some.inj fetched).symm
    have counted : (escape.enter ++ escape.leave.take pc).any countsEscape = true := by
      rw [atLast, isLeave, List.take_left]
      cases escape with
      | function func =>
          rw [List.any_append, any_enter.mpr (by rintro ⟨⟩)]
          rfl
      | syscall =>
          have isFront : front = atomicIncrThreadEscapes .r11 := by
            have whole : front ++ [.storeImm8 (atFs tcbInSyscall) 0] =
                atomicIncrThreadEscapes .r11 ++ [.storeImm8 (atFs tcbInSyscall) 0] :=
              isLeave.symm
            exact List.append_cancel_right whole
          rw [isFront]
          rfl
    rw [isClear] at effect ⊢
    rw [stageBehind, if_neg notEmpty, if_pos counted]
    exact .leaves rfl rfl effect

/-- Outside of the instructions that use the block, the count stays. -/
private theorem escapesOf_of_header (base : other.segmentBase = m.segmentBase)
    (bytes : ∀ query, InHeader m.fsBase query → other.mem query = m.mem query) :
    escapesOf other = escapesOf m := by
  rw [escapesOf, escapesOf, Machine.fsBase, base, ← Machine.fsBase]
  apply ByteMem.load_congr
  intro offset inside
  exact bytes _ ⟨by rw [tcbThreadEscapes]; omega, by rw [tcbThreadEscapes]; omega⟩

/-- What a step does to its thread. -/
structure OwnEffect (before after : EntrySystem) (thread next : EntryThread) : Prop where
  tcb : next.tcb = thread.tcb
  stage : StageEffect thread.place.stage next.place.stage
    (escapesOf (before.machine thread)) (escapesOf (after.machine next))

private theorem ownEffect_put {place : EntryPlace}
    (isNext : (before.put index m place).threads index = some next)
    (base : m.segmentBase = thread.core.segmentBase)
    (stage : StageEffect thread.place.stage place.stage (escapesOf (before.machine thread))
      (escapesOf m)) : OwnEffect before (before.put index m place) thread next := by
  rw [threads_put, if_pos rfl] at isNext
  obtain rfl := Option.some.inj isNext
  exact ⟨congrArg (fun bases : SegmentReg → BitVec 64 => (bases .fs).toNat) base, stage⟩

theorem EntryStep.ownEffect (invariant : EntryInvariant layout before)
    (step : EntryStep code layout before index after)
    (isThread : before.threads index = some thread)
    (isNext : after.threads index = some next) : OwnEffect before after thread next := by
  have safe := invariant.safe index thread isThread
  cases step with
  | start unused _ _ _ _ => exact absurd (unused.symm.trans isThread) (by rintro ⟨⟩)
  | exit _ _ =>
      have gone : Function.update before.threads index none index = none :=
        Function.update_self ..
      exact absurd (gone.symm.trans isNext) (by rintro ⟨⟩)
  | inside was place base writes =>
      obtain rfl := Option.some.inj (isThread.symm.trans was)
      refine ownEffect_put isNext base (.stays (by rw [place]) ?_)
      rename_i moved
      have low : 2 ^ 32 ≤ thread.tcb := safe.block.low
      have isTcb : moved.fsBase = thread.tcb := by
        rw [Machine.fsBase, base, EntryThread.tcb]
      rw [escapesOf, isTcb]
      apply ByteMem.load_congr
      intro offset within
      exact writes _ (by omega) (by rw [tcbThreadEscapes, tcbContinuation]; omega)
        (by rw [tcbThreadEscapes]; omega)
  | escape was place escape =>
      obtain rfl := Option.some.inj (isThread.symm.trans was)
      exact ownEffect_put isNext rfl (.stays (by rw [place]; rfl) rfl)
  | enter was place fetched =>
      obtain rfl := Option.some.inj (isThread.symm.trans was)
      rw [place] at safe
      obtain ⟨_, _, same⟩ := safe.place
      refine ownEffect_put isNext (segmentBase_exec _ _) ?_
      rw [place]
      exact stageEffect_enter fetched same safe.block.high
  | lockSet was place =>
      obtain rfl := Option.some.inj (isThread.symm.trans was)
      exact ownEffect_put isNext rfl (.stays (by rw [place]; rfl) rfl)
  | lockExchange was place =>
      obtain rfl := Option.some.inj (isThread.symm.trans was)
      have exchange := exchanged layout.locked (before.machine thread)
      refine ownEffect_put isNext exchange.segmentBase (.stays (by rw [place]; rfl) ?_)
      exact escapesOf_of_header exchange.segmentBase (header_exchange safe.block)
  | lockTest was place =>
      obtain rfl := Option.some.inj (isThread.symm.trans was)
      exact ownEffect_put isNext rfl (.stays (by rw [place]; rfl) rfl)
  | lockBranch was place =>
      obtain rfl := Option.some.inj (isThread.symm.trans was)
      refine ownEffect_put isNext rfl (.stays ?_ rfl)
      rw [place]
      split <;> rfl
  | call was place =>
      obtain rfl := Option.some.inj (isThread.symm.trans was)
      refine ownEffect_put isNext rfl (.stays (by rw [place]; rfl) ?_)
      refine escapesOf_of_header rfl fun query inside => ?_
      have inTcb : InHeader thread.tcb query := inside
      unfold InHeader at inTcb
      exact pushed_callTo invariant isThread place _ (by omega)
  | function was place stepped writes =>
      obtain rfl := Option.some.inj (isThread.symm.trans was)
      have base := code.segmentBase _ _ _ stepped
      refine ownEffect_put isNext base (.stays (by rw [place]) ?_)
      refine escapesOf_of_header base fun query inside => ?_
      exact writes query fun allowed => (allowed.2 index thread isThread).1 inside
  | functionReturns was place returned =>
      obtain rfl := Option.some.inj (isThread.symm.trans was)
      exact ownEffect_put isNext rfl (.stays (by rw [place]; rfl) rfl)
  | unlockSet was place =>
      obtain rfl := Option.some.inj (isThread.symm.trans was)
      exact ownEffect_put isNext rfl (.stays (by rw [place]; rfl) rfl)
  | unlockExchange was place =>
      obtain rfl := Option.some.inj (isThread.symm.trans was)
      have exchange := exchanged layout.locked (before.machine thread)
      refine ownEffect_put isNext exchange.segmentBase (.stays ?_ ?_)
      · rename_i func entered
        rw [place]
        cases func <;> rfl
      · exact escapesOf_of_header exchange.segmentBase (header_exchange safe.block)
  | kernel was place base regs writes =>
      obtain rfl := Option.some.inj (isThread.symm.trans was)
      refine ownEffect_put isNext base (.stays (by rw [place]; rfl) ?_)
      have low : 2 ^ 32 ≤ (before.machine thread).fsBase := safe.block.low
      refine escapesOf_of_header base fun query inside => ?_
      unfold InHeader at inside
      exact writes query (by omega)
  | leave was place fetched =>
      obtain rfl := Option.some.inj (isThread.symm.trans was)
      rw [place] at safe
      obtain ⟨_, _, released, _, same⟩ := safe.place
      refine ownEffect_put isNext (segmentBase_exec _ _) ?_
      rw [place]
      exact stageEffect_leave fetched same safe.block.high
  | resume was place =>
      obtain rfl := Option.some.inj (isThread.symm.trans was)
      exact ownEffect_put isNext rfl (.stays (by rw [place]; rfl) rfl)

end Stages

section Refinement

variable {code : CCode} {layout : EntryLayout} {before after : EntrySystem}
  {system : System} {index : Nat}

/-- The fields of a control block in memory. -/
def fieldsAt (mem : ByteMem) (tcb : Nat) : TcbFields :=
  ⟨mem.load (tcb + tcbThreadEscapes) 8, mem (tcb + tcbInSyscall) != 0⟩

/--
The system of threads that the instructions implement: its threads are at the stages of the
places, no check is in flight, and a thread holds the lock only inside a C function.
-/
structure ShowsThreads (config : EntrySystem) (system : System) : Prop where
  threads : ∀ index thread, config.threads index = some thread →
    ∃ shown, system.threads index = some shown ∧ shown.tcb = thread.tcb ∧
      shown.stage = thread.place.stage ∧ shown.inflight = none
  fields : ∀ index thread, config.threads index = some thread →
    system.blocks.memory thread.tcb = fieldsAt config.mem thread.tcb
  mapped : ∀ index thread, config.threads index = some thread →
    thread.tcb ∈ system.blocks.mapped
  holder : ∀ index, system.holder = some index → ∃ func, config.runs index = some func

/-- The steps of the system of threads that the entries take. -/
def EntryEvent (_ : System) (event : Event) : Prop :=
  ∃ index, event = .enter index ∨ event = .count index ∨ event = .leave index

/-- The fields of a thread in a safe system. -/
theorem fieldsAt_of_safe {config : EntrySystem} {thread : EntryThread}
    (safe : EntrySafe layout (config.machine thread) thread.place) :
    fieldsAt config.mem thread.tcb =
      ⟨escapesOf (config.machine thread), decide (thread.place.stage ≠ .sandbox)⟩ := by
  have flag : config.mem (thread.tcb + tcbInSyscall) =
      if thread.place.stage = .sandbox then 0 else 1 := flag_of_stage safe
  rw [fieldsAt, flag]
  by_cases isSandbox : thread.place.stage = .sandbox
  · rw [if_pos isSandbox, isSandbox]
    rfl
  · rw [if_neg isSandbox, decide_eq_true isSandbox]
    rfl

/-- A step of a thread shows nothing of the others. -/
private theorem shows_of_effect (shows : ShowsThreads before system)
    (invariant : EntryInvariant layout before)
    (effect : StepEffect layout before index after) {thread next : EntryThread}
    (isThread : before.threads index = some thread)
    (isNext : after.threads index = some next) (tcb : next.tcb = thread.tcb)
    {shown : Thread} (shownTcb : shown.tcb = next.tcb) (stage : shown.stage = next.place.stage)
    (ready : shown.inflight = none) (lock : ∀ other, other ≠ index →
      after.runs other = before.runs other)
    (holder : system.holder = some index → ∃ func, after.runs index = some func)
    {system' : System} (threads : system'.threads =
      Function.update system.threads index (some shown))
    (memory : system'.blocks.memory = Function.update system.blocks.memory thread.tcb
      (fieldsAt after.mem thread.tcb))
    (mapped : system'.blocks.mapped = system.blocks.mapped)
    (sameHolder : system'.holder = system.holder) : ShowsThreads after system' where
  threads := by
    intro other otherThread isOther
    by_cases same : other = index
    · subst same
      obtain rfl := Option.some.inj (isNext.symm.trans isOther)
      exact ⟨shown, by rw [threads, Function.update_self], shownTcb, stage, ready⟩
    · rw [effect.others other same] at isOther
      rw [threads, Function.update_of_ne same]
      exact shows.threads other otherThread isOther
  fields := by
    intro other otherThread isOther
    by_cases same : other = index
    · subst same
      obtain rfl := Option.some.inj (isNext.symm.trans isOther)
      rw [memory, tcb, Function.update_self]
    · rw [effect.others other same] at isOther
      have apart := invariant.apart other index otherThread thread same isOther isThread
      have block := (invariant.safe other otherThread isOther).block
      have different : otherThread.tcb ≠ thread.tcb := by
        unfold BlocksApart at apart
        omega
      have kept := effect.blocks other otherThread same isOther
      rw [memory, Function.update_of_ne different, shows.fields other otherThread isOther,
        fieldsAt, fieldsAt]
      have flag : after.mem (otherThread.tcb + tcbInSyscall) =
          before.mem (otherThread.tcb + tcbInSyscall) :=
        kept _ (.inl ⟨by rw [tcbInSyscall]; omega, by rw [tcbInSyscall]; omega⟩)
      have count : after.mem.load (otherThread.tcb + tcbThreadEscapes) 8 =
          before.mem.load (otherThread.tcb + tcbThreadEscapes) 8 := by
        apply ByteMem.load_congr
        intro offset inside
        exact kept _ (.inl ⟨by rw [tcbThreadEscapes]; omega, by rw [tcbThreadEscapes]; omega⟩)
      rw [flag, count]
  mapped := by
    intro other otherThread isOther
    rw [mapped]
    by_cases same : other = index
    · subst same
      obtain rfl := Option.some.inj (isNext.symm.trans isOther)
      rw [tcb]
      exact shows.mapped other thread isThread
    · rw [effect.others other same] at isOther
      exact shows.mapped other otherThread isOther
  holder := by
    intro other isHolder
    rw [sameHolder] at isHolder
    by_cases same : other = index
    · subst same
      exact holder isHolder
    · rw [lock other same]
      exact shows.holder other isHolder

/-- A step that a thread takes while it stays one, and does not end an update by returning. -/
def EntryMove (code : CCode) (layout : EntryLayout) (holder : Option Nat)
    (before after : EntrySystem) : Prop :=
  ∃ index, EntryStep code layout before index after ∧
    (∀ other, (after.threads other).isSome = (before.threads other).isSome) ∧
    (holder = some index → before.runs index ≠ none → after.runs index ≠ none)

/-- A thread inside a C function has counted its escape. -/
private theorem stage_of_runs {thread : EntryThread}
    (isThread : after.threads index = some thread) (isRunning : after.runs index ≠ none) :
    thread.place.stage = .counted := by
  rw [runs_of_thread isThread] at isRunning
  cases isPlace : thread.place with
  | running func entered called => rfl
  | _ =>
      rw [isPlace] at isRunning
      exact absurd rfl isRunning

/-- Without a thread the only step is its start. -/
private theorem isSome_of_start (step : EntryStep code layout before index after)
    (isNone : before.threads index = none) : (after.threads index).isSome = true := by
  cases step
  case start =>
    rw [threads_put, if_pos rfl]
    rfl
  all_goals simp_all only [reduceCtorEq]

/-- A step of the entries is a step of the system of threads, or shows nothing. -/
theorem EntryMove.refines (invariant : EntryInvariant layout before)
    (move : EntryMove code layout system.holder before after)
    (shows : ShowsThreads before system) :
    ∃ system', SystemRun EntryEvent system system' ∧ ShowsThreads after system' ∧
      system'.holder = system.holder := by
  obtain ⟨index, step, stay, updating⟩ := move
  have effect := step.effect invariant
  have invariantAfter := effect.preserved invariant
  have isSome := stay index
  cases isThread : before.threads index with
  | none =>
      rw [isSome_of_start step isThread, isThread] at isSome
      cases isSome
  | some thread =>
      rw [isThread, Option.isSome_some, Option.isSome_iff_exists] at isSome
      obtain ⟨next, isNext⟩ := isSome
      have own := step.ownEffect invariant isThread isNext
      have lock : ∀ other, other ≠ index → after.runs other = before.runs other :=
        fun other different => runs_congr (effect.others other different)
      have holder : system.holder = some index → ∃ func, after.runs index = some func := by
        intro isHolder
        obtain ⟨func, isRunning⟩ := shows.holder index isHolder
        apply Option.ne_none_iff_exists'.mp
        exact updating isHolder (by rw [isRunning]; exact Option.some_ne_none func)
      obtain ⟨shown, isShown, shownTcb, stage, ready⟩ := shows.threads index thread isThread
      have mapped : shown.tcb ∈ system.blocks.mapped := by
        rw [shownTcb]
        exact shows.mapped index thread isThread
      have fieldsBefore := shows.fields index thread isThread
      rw [fieldsAt_of_safe (invariant.safe index thread isThread)] at fieldsBefore
      have fieldsAfter := fieldsAt_of_safe (invariantAfter.safe index next isNext)
      rw [own.tcb] at fieldsAfter
      have build := @shows_of_effect layout before after system index shows invariant effect
        thread next isThread isNext own.tcb
      cases own.stage with
      | stays same count =>
          refine ⟨system, .refl, build (shownTcb.trans own.tcb.symm) (stage.trans same.symm)
            ready lock holder ?_ ?_ rfl rfl, rfl⟩
          · rw [← isShown, Function.update_eq_self]
          · rw [fieldsAfter, count, same, ← fieldsBefore, Function.update_eq_self]
      | enters was isStage count =>
          have inside : shown.stage = .sandbox := stage.trans was
          refine ⟨_, SystemRun.refl.step (.enter isShown inside ready mapped)
            ⟨index, .inl rfl⟩, ?_, rfl⟩
          refine @build { shown with stage := .entered } ?_ isStage.symm ready lock holder _ rfl
            ?_ rfl rfl
          · exact shownTcb.trans own.tcb.symm
          · rw [fieldsAfter, count, isStage]
            change Function.update system.blocks.memory shown.tcb _ = _
            rw [shownTcb, fieldsBefore]
            rfl
      | counts was isStage count =>
          have entered : shown.stage = .entered := stage.trans was
          refine ⟨_, SystemRun.refl.step (.count isShown entered mapped)
            ⟨index, .inr (.inl rfl)⟩, ?_, rfl⟩
          refine @build { shown with stage := .counted } ?_ isStage.symm ready lock holder _ rfl
            ?_ rfl rfl
          · exact shownTcb.trans own.tcb.symm
          · rw [fieldsAfter, count, isStage]
            change Function.update system.blocks.memory shown.tcb _ = _
            rw [shownTcb, fieldsBefore, was]
            rfl
      | leaves was isStage count =>
          have counted : shown.stage = .counted := stage.trans was
          have unlocked : system.holder ≠ some index := by
            intro isHolder
            obtain ⟨func, isRunning⟩ := holder isHolder
            have isCounted := stage_of_runs isNext (by rw [isRunning]; exact Option.some_ne_none _)
            rw [isStage] at isCounted
            cases isCounted
          refine ⟨_, SystemRun.refl.step (.leave isShown counted unlocked mapped)
            ⟨index, .inr (.inr rfl)⟩, ?_, rfl⟩
          refine @build { shown with stage := .sandbox } ?_ isStage.symm ready lock holder _ rfl
            ?_ rfl rfl
          · exact shownTcb.trans own.tcb.symm
          · rw [fieldsAfter, count, isStage]
            change Function.update system.blocks.memory shown.tcb _ = _
            rw [shownTcb, fieldsBefore]
            rfl

/--
The entries refine the system of threads: from any state that threads reach, whatever they do
next in their entries, the system of threads does by entering, counting and leaving, as long
as no update ends.
-/
theorem entries_refine {begin now : EntrySystem} {log : List (Nat × RuntimeFunction)}
    (booted : begin.Booted layout) (run : (entrySections code layout).Run begin log before)
    (shows : ShowsThreads before system)
    (moves : Relation.ReflTransGen (EntryMove code layout system.holder) before now) :
    ∃ system', SystemRun EntryEvent system system' ∧ ShowsThreads now system' := by
  have guards := entrySections_guards code layout
  have reached := guards.reached booted.invariant run
  have both : EntryInvariant layout now ∧ ∃ system', SystemRun EntryEvent system system' ∧
      ShowsThreads now system' ∧ system'.holder = system.holder := by
    induction moves with
    | refl => exact ⟨reached, system, .refl, shows, rfl⟩
    | tail _ move inductionHypothesis =>
        obtain ⟨invariant, system', steps, shown, sameHolder⟩ := inductionHypothesis
        rw [← sameHolder] at move
        obtain ⟨next, more, shownNext, sameNext⟩ := move.refines invariant shown
        obtain ⟨index, step, _⟩ := move
        exact ⟨(step.effect invariant).preserved invariant, next, steps.trans more, shownNext,
          sameNext.trans sameHolder⟩
  obtain ⟨_, system', steps, shown, _⟩ := both
  exact ⟨system', steps, shown⟩

end Refinement

namespace EntryExample

/-- The system of threads that the started thread shows. -/
def shown : System where
  blocks :=
    { tcbList := [⟨4294967296, 0, false⟩]
      threadEscapeMap := ∅
      mapped := [4294967296]
      memory := fun _ => ⟨0, false⟩ }
  threads := Function.update (fun _ => none) 0
    (some ⟨4294967296, 0, .sandbox, false, none⟩)
  pending := []
  updates := 0
  updater := .idle
  holder := none

/-- The thread has started. -/
def started : EntrySystem :=
  booted.put 0 (core.on booted.mem) .sandbox

theorem threads_started {index : Nat} {thread : EntryThread}
    (isThread : started.threads index = some thread) :
    index = 0 ∧ thread = ⟨core, .sandbox⟩ := by
  rw [started, threads_put] at isThread
  split at isThread
  next isZero => exact ⟨isZero, (Option.some.inj isThread).symm⟩
  next => cases isThread

theorem shows_started : ShowsThreads started shown where
  threads := by
    intro index thread isThread
    obtain ⟨rfl, rfl⟩ := threads_started isThread
    have isShown : shown.threads 0 = some ⟨4294967296, 0, .sandbox, false, none⟩ := rfl
    exact ⟨_, isShown, rfl, rfl, rfl⟩
  fields := by
    intro index thread isThread
    obtain ⟨rfl, rfl⟩ := threads_started isThread
    rfl
  mapped := by
    intro index thread isThread
    obtain ⟨rfl, rfl⟩ := threads_started isThread
    exact List.mem_singleton_self _
  holder := by
    rintro index ⟨⟩

/-- A thread that is put somewhere else stays a thread. -/
theorem isSome_put {system : EntrySystem} {m next : Machine} {place other : EntryPlace}
    (index : Nat) : (((system.put 0 m place).put 0 next other).threads index).isSome =
      ((system.put 0 m place).threads index).isSome := by
  rw [threads_put]
  split
  next isZero =>
    rw [isZero, threads_zero]
    rfl
  next => rfl

/-- It leaves the sandbox and executes the first instruction of an entry. -/
theorem entries_refine_clone : ∃ now thread system', now.threads 0 = some thread ∧
    thread.place.stage = .entered ∧ SystemRun EntryEvent shown system' ∧
    ShowsThreads now system' := by
  have run := @SectionSystem.Run.refl _ _ _ _ _ (entrySections code layout) booted
  have run := run.step (@EntryStep.start code layout booted 0 core rfl block_layout
    (fun _ _ isNone => by cases isNone) rfl rfl)
  have noHolder : ∀ {before after : EntrySystem}, shown.holder = some 0 →
      before.runs 0 ≠ none → after.runs 0 ≠ none := by
    rintro before after ⟨⟩
  have leaves : EntryMove code layout shown.holder started _ :=
    ⟨0, .escape threads_zero rfl (.function .rockClone), isSome_put, noHolder⟩
  have moves := (Relation.ReflTransGen.single leaves).tail
    ⟨0, .enter threads_zero rfl rfl, isSome_put, noHolder⟩
  obtain ⟨system', steps, shows⟩ := entries_refine booted_layout run shows_started moves
  exact ⟨_, _, system', threads_zero, rfl, steps, shows⟩

end EntryExample

end Mcfi
