import Mcfi.RuntimeEntries

namespace Mcfi

open X86

/-!
# What holds of a thread between two instructions

The machine of a thread that is on its way into the runtime or out of it is the one that
the instructions behind it give, as far as the thread's own control block goes.  All of
these instructions stay within the block.
-/

section Code

variable (escape : Escape)

theorem enter_within : ∀ instr ∈ escape.enter, instr.Within 0x8 0x100 := by
  rcases escape with (_ | _) | _ <;> decide

theorem leave_within : ∀ instr ∈ escape.leave, instr.Within 0x8 0x100 := by
  rcases escape with (_ | _) | _ <;> decide

/-- The address of the block is not written. -/
theorem enter_spares_self :
    ∀ instr ∈ escape.enter, instr.Spares 0x100 tcbSelf (tcbSelf + 8) := by
  rcases escape with (_ | _) | _ <;> decide

theorem leave_spares_self :
    ∀ instr ∈ escape.leave, instr.Spares 0x100 tcbSelf (tcbSelf + 8) := by
  rcases escape with (_ | _) | _ <;> decide

/-- The callee-saved registers are not set. -/
theorem enter_calleeSaved :
    ∀ instr ∈ escape.enter, ∀ reg ∈ calleeSaved, reg ∉ instr.sets := by
  rcases escape with (_ | _) | _ <;> decide

theorem leave_calleeSaved :
    ∀ instr ∈ escape.leave, ∀ reg ∈ calleeSaved, reg ∉ instr.sets := by
  rcases escape with (_ | _) | _ <;> decide

/-- `IN_SYSCALL` is raised first, and not written again on the way in. -/
theorem enter_flag : ∃ rest, escape.enter = .storeImm8 (atFs tcbInSyscall) 1 :: rest ∧
    ∀ instr ∈ rest, instr.Spares 0x100 tcbInSyscall (tcbInSyscall + 8) := by
  rcases escape with (_ | _) | _ <;> exact ⟨_, rfl, by decide⟩

/-- It is cleared last. -/
theorem leave_flag : ∃ front, escape.leave = front ++ [.storeImm8 (atFs tcbInSyscall) 0] ∧
    ∀ instr ∈ front, instr.Spares 0x100 tcbInSyscall (tcbInSyscall + 8) := by
  rcases escape with (_ | _) | _
  case function.patchCall => exact ⟨onlinePatchLeave.dropLast, rfl, by decide⟩
  case function.patchEntry => exact ⟨onlinePatchLeave.dropLast, rfl, by decide⟩
  case syscall => exact ⟨syscallLeave.dropLast, rfl, by decide⟩
  all_goals exact ⟨runtimeFunctionLeave.dropLast, rfl, by decide⟩

/-- The ways in of the runtime are that of `online_patch` and that of `runtime_function`. -/
theorem function_enter {motive : List Instr → Prop} (patch : motive onlinePatchEnter)
    (plain : motive runtimeFunctionEnter) (func : RuntimeFunction) :
    motive (Escape.function func).enter := by
  cases func
  case patchCall => exact patch
  case patchEntry => exact patch
  all_goals exact plain

theorem function_leave {motive : List Instr → Prop} (patch : motive onlinePatchLeave)
    (plain : motive runtimeFunctionLeave) (func : RuntimeFunction) :
    motive (Escape.function func).leave := by
  cases func
  case patchCall => exact patch
  case patchEntry => exact patch
  all_goals exact plain

/-- The stack of the runtime is loaded from the block. -/
theorem enter_stack (func : RuntimeFunction) : ∃ front back,
    (Escape.function func).enter = front ++ switchRuntimeStack ++ back ∧
      (∀ instr ∈ front, instr.Spares 0x100 tcbSelf (tcbSelf + 8)) ∧
      ∀ instr ∈ back, .rsp ∉ instr.sets := by
  revert func
  apply function_enter (motive := fun code => ∃ front back,
    code = front ++ switchRuntimeStack ++ back ∧
      (∀ instr ∈ front, instr.Spares 0x100 tcbSelf (tcbSelf + 8)) ∧
      ∀ instr ∈ back, .rsp ∉ instr.sets)
  · exact ⟨onlinePatchEnter.take 23, [.mov64 .rdi .r11], rfl, by decide, by decide⟩
  · exact ⟨runtimeFunctionEnter.take 5, [], rfl, by decide, by decide⟩

end Code

section States

variable {layout : EntryLayout} {escape : Escape} {func : RuntimeFunction}
  {entered released m other : Machine} {pc : Nat}

/-- A thread leaves the sandbox with its block in order. -/
structure LeftSandbox (entered : Machine) : Prop where
  self : entered.mem.load (entered.fsBase + tcbSelf) 8 = entered.fsBase
  flag : entered.mem (entered.fsBase + tcbInSyscall) = 0

/-- What stays of the way in: the block, the stack pointer and the callee-saved registers. -/
structure Past (escape : Escape) (entered m : Machine) : Prop where
  segmentBase : m.segmentBase = entered.segmentBase
  header : ∀ query, InHeader entered.fsBase query →
    m.mem query = (run escape.enter entered).mem query
  stack : m.regs .rsp = (run escape.enter entered).regs .rsp
  calleeSaved : ∀ reg ∈ calleeSaved, m.regs reg = entered.regs reg

/-- Inside the C function the stack pointer and the registers are those of the function. -/
structure Within (func : RuntimeFunction) (entered called m : Machine) : Prop where
  segmentBase : m.segmentBase = entered.segmentBase
  header : ∀ query, InHeader entered.fsBase query →
    m.mem query = (run (Escape.function func).enter entered).mem query
  stack : called.regs .rsp = (run (Escape.function func).enter entered).regs .rsp - 8
  calleeSaved : ∀ reg ∈ calleeSaved, called.regs reg = entered.regs reg

/-- What holds of the machine of a thread at a place. -/
def EntryPlace.Holds (m : Machine) : EntryPlace → Prop
  | .sandbox => m.mem (m.fsBase + tcbInSyscall) = 0
  | .entering escape entered pc => LeftSandbox entered ∧ pc < escape.enter.length ∧
      SameWithin 0x8 0x100 (run (escape.enter.take pc) entered) m
  | .locking func entered stage => LeftSandbox entered ∧ Past (.function func) entered m ∧
      (stage = .exchange → m.low8 .r11 = 1)
  | .calling func entered => LeftSandbox entered ∧ Past (.function func) entered m
  | .running func entered called => LeftSandbox entered ∧ Within func entered called m
  | .unlocking func entered cleared => LeftSandbox entered ∧ Past (.function func) entered m ∧
      (cleared = true → m.low8 .r11 = 0)
  | .trapping entered => LeftSandbox entered ∧ Past .syscall entered m
  | .leaving escape entered pc => LeftSandbox entered ∧ pc < escape.leave.length ∧
      ∃ released, Past escape entered released ∧
        SameWithin 0x8 0x100 (run (escape.leave.take pc) released) m
  | .resuming func entered => LeftSandbox entered ∧
      ∃ released, Past (.function func) entered released ∧
        SameWithin 0x8 0x100 (run (Escape.function func).leave released) m

/-- The block of a thread and the invariant of its place. -/
structure EntrySafe (layout : EntryLayout) (m : Machine) (place : EntryPlace) : Prop where
  block : layout.Block m.fsBase
  self : m.mem.load (m.fsBase + tcbSelf) 8 = m.fsBase
  place : place.Holds m

/-- A machine whose registers and block are the same. -/
theorem Past.congr (past : Past escape entered m) (same : SameWithin 0x8 0x100 m other) :
    Past escape entered other := by
  have core := same.core
  have bases : other.segmentBase = m.segmentBase :=
    congrArg (fun core : Core => core.segmentBase) core
  have regs : other.regs = m.regs := congrArg (fun core : Core => core.regs) core
  have fsBase : m.fsBase = entered.fsBase := by
    rw [Machine.fsBase, past.segmentBase, Machine.fsBase]
  refine ⟨bases.trans past.segmentBase, ?_, ?_, ?_⟩
  · intro query inside
    rw [same.bytes query (by rw [fsBase]; exact inside.1) (by rw [fsBase]; exact inside.2)]
    exact past.header query inside
  · rw [regs]
    exact past.stack
  · intro reg listed
    rw [regs]
    exact past.calleeSaved reg listed

/-- So what holds of a place depends on the registers and the block only. -/
theorem EntryPlace.Holds.congr {place : EntryPlace} (holds : place.Holds m)
    (same : SameWithin 0x8 0x100 m other) : place.Holds other := by
  have regs : other.regs = m.regs := congrArg (fun core : Core => core.regs) same.core
  have low : other.low8 .r11 = m.low8 .r11 := by
    rw [Machine.low8, Machine.low8, regs]
  cases place with
  | sandbox =>
      change other.mem (other.fsBase + tcbInSyscall) = 0
      rw [same.fsBase, same.bytes _ (by rw [tcbInSyscall]; omega)
        (by rw [tcbInSyscall]; omega)]
      exact holds
  | entering escape entered pc => exact ⟨holds.1, holds.2.1, holds.2.2.trans same⟩
  | locking func entered stage =>
      exact ⟨holds.1, holds.2.1.congr same, fun at_ => low.trans (holds.2.2 at_)⟩
  | calling func entered => exact ⟨holds.1, holds.2.congr same⟩
  | running func entered called =>
      obtain ⟨entered', within⟩ := holds
      have fsBase : m.fsBase = entered.fsBase := by
        rw [Machine.fsBase, within.segmentBase, Machine.fsBase]
      refine ⟨entered', ?_, ?_, within.stack, within.calleeSaved⟩
      · exact (congrArg (fun core : Core => core.segmentBase) same.core).trans
          within.segmentBase
      · intro query inside
        rw [same.bytes query (by rw [fsBase]; exact inside.1)
          (by rw [fsBase]; exact inside.2)]
        exact within.header query inside
  | unlocking func entered cleared =>
      exact ⟨holds.1, holds.2.1.congr same, fun at_ => low.trans (holds.2.2 at_)⟩
  | trapping entered => exact ⟨holds.1, holds.2.congr same⟩
  | leaving escape entered pc =>
      obtain ⟨entered', below, released, past, ran⟩ := holds
      exact ⟨entered', below, released, past, ran.trans same⟩
  | resuming func entered =>
      obtain ⟨entered', released, past, ran⟩ := holds
      exact ⟨entered', released, past, ran.trans same⟩

/-- A thread that takes no step stays safe while its block stays as it is. -/
theorem EntrySafe.congr {place : EntryPlace} (safe : EntrySafe layout m place)
    (same : SameWithin 0x8 0x100 m other) : EntrySafe layout other place where
  block := by
    rw [same.fsBase]
    exact safe.block
  self := by
    rw [same.fsBase, same.load (by decide) (by decide)]
    exact safe.self
  place := safe.place.congr same

/-- The stack pointer in the runtime. -/
theorem stack_entered (enters : LeftSandbox entered) (block : layout.Block entered.fsBase)
    (past : Past (.function func) entered m) :
    (m.regs .rsp).toNat = entered.fsBase + 0xffc0 := by
  obtain ⟨front, back, isEnter, spares, others⟩ := enter_stack func
  have high := block.high
  rw [past.stack, isEnter, run_append, run_append, regs_run_other others]
  have base : (run front entered).fsBase = entered.fsBase := fsBase_run front entered
  have self : (run front entered).mem.load (entered.fsBase + tcbSelf) 8 = entered.fsBase := by
    rw [load_run_spared spares (by omega) (Nat.le_refl _) (Nat.le_refl _)]
    exact enters.self
  have addr : (run front entered).addr (atFs tcbSelf) = entered.fsBase + tcbSelf := by
    rw [addr_atFs (by rw [← Machine.fsBase, base, tcbSelf]; omega), ← Machine.fsBase, base]
  have stack : (run switchRuntimeStack (run front entered)).regs .rsp =
      BitVec.ofNat 64 entered.fsBase + 0xffc0 := by
    rw [← self, ← addr]
    rfl
  rw [stack, BitVec.toNat_add, BitVec.toNat_ofNat]
  change (entered.fsBase % 2 ^ 64 + 0xffc0) % 2 ^ 64 = _
  omega

end States

section Own

variable {layout : EntryLayout} {escape : Escape} {func : RuntimeFunction}
  {entered released m after : Machine} {pc : Nat} {instr : Instr} {place : EntryPlace}

/-- An instruction in the block keeps the thread's block, and its address in it. -/
private theorem safe_exec (safe : EntrySafe layout m place) (next : EntryPlace)
    (spares : instr.Spares 0x100 tcbSelf (tcbSelf + 8))
    (holds : next.Holds (instr.exec m)) : EntrySafe layout (instr.exec m) next where
  block := by
    rw [fsBase_exec]
    exact safe.block
  self := by
    have high := safe.block.high
    rw [fsBase_exec]
    refine Eq.trans ?_ safe.self
    apply ByteMem.load_congr
    intro index inside
    exact mem_exec_spared spares (by omega) (by omega) (by omega)
  place := holds

/-- Behind the way in. -/
private theorem past_of_run (same : SameWithin 0x8 0x100 (run escape.enter entered) m) :
    Past escape entered m := by
  have regs : m.regs = (run escape.enter entered).regs :=
    congrArg (fun core : Core => core.regs) same.core
  have base : (run escape.enter entered).fsBase = entered.fsBase := fsBase_run _ _
  refine ⟨?_, ?_, ?_, ?_⟩
  · exact (congrArg (fun core : Core => core.segmentBase) same.core).trans
      (segmentBase_run _ _)
  · intro query inside
    exact same.bytes query (by rw [base]; exact inside.1) (by rw [base]; exact inside.2)
  · rw [regs]
  · intro reg listed
    rw [regs]
    exact regs_run_other fun instr listedInstr =>
      enter_calleeSaved escape instr listedInstr reg listed

/-- An instruction of the way in. -/
theorem safe_enter (safe : EntrySafe layout m (.entering escape entered pc))
    (fetched : escape.enter[pc]? = some instr) :
    EntrySafe layout (instr.exec m) (escape.afterEnter entered (pc + 1)) := by
  obtain ⟨left, below, same⟩ := safe.place
  have listed : instr ∈ escape.enter := List.mem_of_getElem? fetched
  have within := enter_within escape instr listed
  have high := safe.block.high
  have base : (run (escape.enter.take pc) entered).fsBase = m.fsBase := same.fsBase.symm
  have ran : SameWithin 0x8 0x100 (run (escape.enter.take (pc + 1)) entered)
      (instr.exec m) := by
    rw [run_take_succ fetched]
    exact same.exec within (by rw [base]; omega)
  refine safe_exec safe _ (enter_spares_self escape instr listed) ?_
  unfold Escape.afterEnter
  split
  next more => exact ⟨left, more, ran⟩
  next last =>
    rw [List.take_of_length_le (by omega)] at ran
    have past := past_of_run ran
    cases escape with
    | function func => exact ⟨left, past, by rintro ⟨⟩⟩
    | syscall => exact ⟨left, past⟩

/-- Behind the way out the flag is clear. -/
theorem flag_left (block : layout.Block m.fsBase)
    (same : SameWithin 0x8 0x100 (run escape.leave released) m) :
    m.mem (m.fsBase + tcbInSyscall) = 0 := by
  obtain ⟨front, isLeave, _⟩ := leave_flag escape
  have high := block.high
  have base : (run front released).fsBase = m.fsBase := by
    rw [same.fsBase, fsBase_run, fsBase_run]
  have addr : (run front released).addr (atFs tcbInSyscall) = m.fsBase + tcbInSyscall := by
    rw [← base]
    exact addr_tcb (by rw [← Machine.fsBase, base]; exact high) (by decide)
  rw [same.bytes _ (by rw [← same.fsBase, tcbInSyscall]; omega)
    (by rw [← same.fsBase, tcbInSyscall]; omega), isLeave, run_append]
  change ByteMem.store _ ((run front released).addr (atFs tcbInSyscall)) 1 0 _ = 0
  rw [addr, ByteMem.store, if_pos ⟨Nat.le_refl _, Nat.lt_succ_self _⟩, Nat.zero_div]
  rfl

/-- An instruction of the way out. -/
theorem safe_leave (safe : EntrySafe layout m (.leaving escape entered pc))
    (fetched : escape.leave[pc]? = some instr) :
    EntrySafe layout (instr.exec m) (escape.afterLeave entered (pc + 1)) := by
  obtain ⟨left, below, released, past, same⟩ := safe.place
  have listed : instr ∈ escape.leave := List.mem_of_getElem? fetched
  have within := leave_within escape instr listed
  have high := safe.block.high
  have base : (run (escape.leave.take pc) released).fsBase = m.fsBase := same.fsBase.symm
  have ran : SameWithin 0x8 0x100 (run (escape.leave.take (pc + 1)) released)
      (instr.exec m) := by
    rw [run_take_succ fetched]
    exact same.exec within (by rw [base]; omega)
  refine safe_exec safe _ (leave_spares_self escape instr listed) ?_
  unfold Escape.afterLeave
  split
  next more => exact ⟨left, more, released, past, ran⟩
  next last =>
    rw [List.take_of_length_le (by omega)] at ran
    cases escape with
    | function func => exact ⟨left, released, past, ran⟩
    | syscall =>
        have block : layout.Block (instr.exec m).fsBase := by
          rw [fsBase_exec]
          exact safe.block
        exact flag_left block ran

/-- A change of `r11` and of the zero flag, and of memory outside of the block. -/
theorem safe_outside (safe : EntrySafe layout m place) (next : EntryPlace)
    (base : after.segmentBase = m.segmentBase)
    (bytes : ∀ query, InHeader m.fsBase query → after.mem query = m.mem query)
    (holds : next.Holds after) : EntrySafe layout after next := by
  have fsBase : after.fsBase = m.fsBase := by
    rw [Machine.fsBase, base, Machine.fsBase]
  refine ⟨?_, ?_, holds⟩
  · rw [fsBase]
    exact safe.block
  · rw [fsBase]
    refine Eq.trans ?_ safe.self
    apply ByteMem.load_congr
    intro index inside
    exact bytes _ ⟨by rw [tcbSelf]; omega, by rw [tcbSelf]; omega⟩

/-- What stays of the way in when `r11` and memory outside of the block change. -/
theorem Past.outside (past : Past escape entered m)
    (base : after.segmentBase = m.segmentBase)
    (bytes : ∀ query, InHeader entered.fsBase query → after.mem query = m.mem query)
    (regs : ∀ reg, reg ≠ .r11 → after.regs reg = m.regs reg) : Past escape entered after where
  segmentBase := base.trans past.segmentBase
  header := fun query inside => (bytes query inside).trans (past.header query inside)
  stack := (regs .rsp (by decide)).trans past.stack
  calleeSaved := by
    intro reg listed
    refine (regs reg ?_).trans (past.calleeSaved reg listed)
    rintro rfl
    revert listed
    decide

end Own

end Mcfi
