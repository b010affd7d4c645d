import Mcfi.RuntimeSerial
import Mcfi.Threads

namespace Mcfi

open X86

/-!
# What an entry leaves behind

`IN_SYSCALL` is raised from the first instruction of an entry to its last one.  When a
thread goes on at its continuation, the entry has counted one escape and has restored the
stack pointer, and the callee-saved registers and the continuation are those with which the
thread left the sandbox.
-/

section Words

variable {layout : EntryLayout} {func : RuntimeFunction} {entered released m : Machine}

/-- Where `save_context` keeps the stack pointer. -/
def tcbStack : Nat := tcbUserCtx + 0x38

/-- The way in saves the stack pointer once. -/
theorem enter_saves (func : RuntimeFunction) : ∃ front back,
    (Escape.function func).enter = front ++ saveContext ++ back ∧
      (∀ instr ∈ front, .rsp ∉ instr.sets) ∧
      ∀ instr ∈ back, instr.Spares 0x100 tcbStack (tcbStack + 8) := by
  revert func
  apply function_enter (motive := fun code => ∃ front back,
    code = front ++ saveContext ++ back ∧ (∀ instr ∈ front, .rsp ∉ instr.sets) ∧
      ∀ instr ∈ back, instr.Spares 0x100 tcbStack (tcbStack + 8))
  · exact ⟨onlinePatchEnter.take 6, onlinePatchEnter.drop 7, rfl, by decide, by decide⟩
  · exact ⟨runtimeFunctionEnter.take 1, runtimeFunctionEnter.drop 2, rfl, by decide,
      by decide⟩

/-- The way out restores it. -/
theorem leave_restores (func : RuntimeFunction) : ∃ front back,
    (Escape.function func).leave = front ++ restoreContext ++ back ∧
      (∀ instr ∈ front, instr.Spares 0x100 tcbStack (tcbStack + 8)) ∧
      ∀ instr ∈ back, .rsp ∉ instr.sets := by
  revert func
  apply function_leave (motive := fun code => ∃ front back,
    code = front ++ restoreContext ++ back ∧
      (∀ instr ∈ front, instr.Spares 0x100 tcbStack (tcbStack + 8)) ∧
      ∀ instr ∈ back, .rsp ∉ instr.sets)
  · exact ⟨onlinePatchLeave.take 5, onlinePatchLeave.drop 6, rfl, by decide, by decide⟩
  · exact ⟨[], runtimeFunctionLeave.drop 1, rfl, by decide, by decide⟩

/-- The way in counts the escape once. -/
theorem enter_counts (func : RuntimeFunction) : ∃ front back,
    (Escape.function func).enter = front ++ atomicIncrThreadEscapes .rax ++ back ∧
      ∀ instr ∈ front ++ back, instr.Spares 0x100 tcbThreadEscapes (tcbThreadEscapes + 8) := by
  revert func
  apply function_enter (motive := fun code => ∃ front back,
    code = front ++ atomicIncrThreadEscapes .rax ++ back ∧
      ∀ instr ∈ front ++ back, instr.Spares 0x100 tcbThreadEscapes (tcbThreadEscapes + 8))
  · exact ⟨onlinePatchEnter.take 20, onlinePatchEnter.drop 23, rfl, by decide⟩
  · exact ⟨runtimeFunctionEnter.take 2, runtimeFunctionEnter.drop 5, rfl, by decide⟩

theorem leave_spares_escapes (func : RuntimeFunction) :
    ∀ instr ∈ (Escape.function func).leave,
      instr.Spares 0x100 tcbThreadEscapes (tcbThreadEscapes + 8) := by
  revert func
  apply function_leave (motive := fun code => ∀ instr ∈ code,
    instr.Spares 0x100 tcbThreadEscapes (tcbThreadEscapes + 8)) <;> decide

/-- The continuation is not written. -/
theorem enter_spares_continuation (func : RuntimeFunction) :
    ∀ instr ∈ (Escape.function func).enter,
      instr.Spares 0x100 tcbContinuation (tcbContinuation + 8) := by
  revert func
  apply function_enter (motive := fun code => ∀ instr ∈ code,
    instr.Spares 0x100 tcbContinuation (tcbContinuation + 8)) <;> decide

theorem leave_spares_continuation (func : RuntimeFunction) :
    ∀ instr ∈ (Escape.function func).leave,
      instr.Spares 0x100 tcbContinuation (tcbContinuation + 8) := by
  revert func
  apply function_leave (motive := fun code => ∀ instr ∈ code,
    instr.Spares 0x100 tcbContinuation (tcbContinuation + 8)) <;> decide

/-- Counting an escape. -/
theorem load_atomicIncr (high : m.fsBase + 0x10000 < 2 ^ 64) (scratchreg : Reg) :
    (run (atomicIncrThreadEscapes scratchreg) m).mem.load (m.fsBase + tcbThreadEscapes) 8 =
      (m.mem.load (m.fsBase + tcbThreadEscapes) 8 + 1) % 2 ^ 64 := by
  have addr : m.addr (atFs tcbThreadEscapes) = m.fsBase + tcbThreadEscapes :=
    addr_tcb high (by decide)
  let loaded := (Instr.load64 scratchreg (atFs tcbThreadEscapes)).exec m
  let counted := (Instr.add64 scratchreg 1).exec loaded
  have ran : run (atomicIncrThreadEscapes scratchreg) m =
      (Instr.store64 (atFs tcbThreadEscapes) scratchreg).exec counted := rfl
  have sum : (counted.regs scratchreg).toNat =
      (m.mem.load (m.fsBase + tcbThreadEscapes) 8 + 1) % 2 ^ 64 := by
    have isSum : counted.regs scratchreg = loaded.regs scratchreg + 1 := if_pos rfl
    have isLoad : loaded.regs scratchreg =
        BitVec.ofNat 64 (m.mem.load (m.addr (atFs tcbThreadEscapes)) 8) := if_pos rfl
    rw [isSum, isLoad, addr, BitVec.toNat_add, BitVec.toNat_ofNat]
    change (_ % 2 ^ 64 + 1) % 2 ^ 64 = _
    exact Nat.mod_add_mod _ _ _
  have stored : (Instr.store64 (atFs tcbThreadEscapes) scratchreg).exec counted =
      { counted with
        mem := counted.mem.store (m.fsBase + tcbThreadEscapes) 8
          (counted.regs scratchreg).toNat } :=
    exec_store64 (m := counted) (addr_tcb high (by decide))
  rw [ran, stored, ← sum]
  exact ByteMem.load_store_same _ _ (counted.regs scratchreg).isLt

/-- The count behind the way in. -/
theorem escapes_entered (high : entered.fsBase + 0x10000 < 2 ^ 64) :
    (run (Escape.function func).enter entered).mem.load
        (entered.fsBase + tcbThreadEscapes) 8 =
      (entered.mem.load (entered.fsBase + tcbThreadEscapes) 8 + 1) % 2 ^ 64 := by
  obtain ⟨front, back, isEnter, spares⟩ := enter_counts func
  have base : (run front entered).fsBase = entered.fsBase := fsBase_run front entered
  have later : (run (atomicIncrThreadEscapes .rax) (run front entered)).fsBase =
      entered.fsBase := (fsBase_run _ _).trans base
  have after : ∀ instr ∈ back,
      instr.Spares 0x100 tcbThreadEscapes (tcbThreadEscapes + 8) :=
    fun instr listed => spares instr (List.mem_append_right front listed)
  have before : ∀ instr ∈ front,
      instr.Spares 0x100 tcbThreadEscapes (tcbThreadEscapes + 8) :=
    fun instr listed => spares instr (List.mem_append_left back listed)
  rw [isEnter, run_append, run_append, ← later,
    load_run_spared after (by rw [later]; omega) (Nat.le_refl _) (Nat.le_refl _), later, ← base,
    load_atomicIncr (by rw [base]; exact high), base,
    load_run_spared before (by omega) (Nat.le_refl _) (Nat.le_refl _)]

/-- What is saved on the way in is the stack pointer. -/
theorem stack_saved (high : entered.fsBase + 0x10000 < 2 ^ 64) :
    (run (Escape.function func).enter entered).mem.load (entered.fsBase + tcbStack) 8 =
      (entered.regs .rsp).toNat := by
  obtain ⟨front, back, isEnter, others, spares⟩ := enter_saves func
  have base : (run front entered).fsBase = entered.fsBase := fsBase_run front entered
  let saved : Machine := { run front entered with
    mem := (run front entered).mem.store (entered.fsBase + tcbStack) 8
      (entered.regs .rsp).toNat }
  have stored : run saveContext (run front entered) = saved := by
    have addr : (run front entered).addr (atFs tcbStack) = entered.fsBase + tcbStack := by
      rw [← base]
      exact addr_tcb (by rw [← Machine.fsBase, base]; exact high) (by decide)
    have stack : (run front entered).regs .rsp = entered.regs .rsp := regs_run_other others
    have exec : run saveContext (run front entered) = { run front entered with
        mem := (run front entered).mem.store (entered.fsBase + tcbStack) 8
          ((run front entered).regs .rsp).toNat } := exec_store64 addr
    rw [exec, stack]
  have savedBase : saved.fsBase = entered.fsBase := base
  rw [isEnter, run_append, run_append, stored, ← savedBase,
    load_run_spared spares (by omega) (Nat.le_refl _) (Nat.le_refl _), savedBase]
  exact ByteMem.load_store_same _ _ (entered.regs .rsp).isLt

/-- Restoring the stack pointer. -/
theorem stack_restoreContext (m : Machine) : (run restoreContext m).regs .rsp =
    BitVec.ofNat 64 (m.mem.load (m.addr (atFs tcbStack)) 8) :=
  rfl

/-- What a thread finds when it goes on behind an entry. -/
structure WentOn (entered m : Machine) : Prop where
  stack : m.regs .rsp = entered.regs .rsp
  calleeSaved : ∀ reg ∈ calleeSaved, m.regs reg = entered.regs reg
  escapes : m.mem.load (m.fsBase + tcbThreadEscapes) 8 =
    (entered.mem.load (entered.fsBase + tcbThreadEscapes) 8 + 1) % 2 ^ 64
  continuation : m.mem.load (m.fsBase + tcbContinuation) 8 =
    entered.mem.load (entered.fsBase + tcbContinuation) 8

/-- A word of the block behind the way out that no instruction of it writes. -/
private theorem load_leave (past : Past (.function func) entered released)
    (same : SameWithin 0x8 0x100 (run (Escape.function func).leave released) m)
    (high : entered.fsBase + 0x10000 < 2 ^ 64) {offset : Nat} (above : 0x8 ≤ offset)
    (below : offset + 8 ≤ 0x100)
    (spares : ∀ instr ∈ (Escape.function func).leave, instr.Spares 0x100 offset (offset + 8)) :
    m.mem.load (m.fsBase + offset) 8 =
      (run (Escape.function func).enter entered).mem.load (entered.fsBase + offset) 8 := by
  have releasedBase : released.fsBase = entered.fsBase := by
    rw [Machine.fsBase, past.segmentBase, Machine.fsBase]
  have base : (run (Escape.function func).leave released).fsBase = entered.fsBase :=
    (fsBase_run _ _).trans releasedBase
  rw [same.fsBase, same.load above below, base, ← releasedBase,
    load_run_spared spares (by omega) (Nat.le_refl _) (Nat.le_refl _)]
  apply ByteMem.load_congr
  intro index inside
  rw [releasedBase]
  exact past.header _ ⟨by omega, by omega⟩

/-- Behind an entry. -/
theorem wentOn_of_past (block : layout.Block entered.fsBase)
    (past : Past (.function func) entered released)
    (same : SameWithin 0x8 0x100 (run (Escape.function func).leave released) m) :
    WentOn entered m := by
  have high := block.high
  have releasedBase : released.fsBase = entered.fsBase := by
    rw [Machine.fsBase, past.segmentBase, Machine.fsBase]
  have regs : m.regs = (run (Escape.function func).leave released).regs :=
    congrArg (fun core : Core => core.regs) same.core
  refine ⟨?_, ?_, ?_, ?_⟩
  · obtain ⟨front, back, isLeave, spares, others⟩ := leave_restores func
    have base : (run front released).fsBase = entered.fsBase :=
      (fsBase_run _ _).trans releasedBase
    have addr : (run front released).addr (atFs tcbStack) = entered.fsBase + tcbStack := by
      rw [← base]
      exact addr_tcb (by rw [← Machine.fsBase, base]; exact high) (by decide)
    have kept : (run front released).mem.load (entered.fsBase + tcbStack) 8 =
        (run (Escape.function func).enter entered).mem.load (entered.fsBase + tcbStack) 8 := by
      rw [← releasedBase, load_run_spared spares (by omega) (Nat.le_refl _) (Nat.le_refl _)]
      apply ByteMem.load_congr
      intro index inside
      rw [releasedBase]
      exact past.header _ ⟨by rw [tcbStack, tcbUserCtx]; omega,
        by rw [tcbStack, tcbUserCtx]; omega⟩
    rw [regs, isLeave, run_append, run_append, regs_run_other others, stack_restoreContext,
      addr, kept,
      stack_saved high, BitVec.ofNat_toNat, BitVec.setWidth_eq]
  · intro reg listed
    rw [regs, regs_run_other fun instr listedInstr =>
      leave_calleeSaved _ instr listedInstr reg listed]
    exact past.calleeSaved reg listed
  · rw [load_leave past same high (by decide) (by decide) (leave_spares_escapes func)]
    exact escapes_entered high
  · rw [load_leave past same high (by decide) (by decide) (leave_spares_continuation func)]
    exact load_run_spared (enter_spares_continuation func) (by omega) (Nat.le_refl _)
      (Nat.le_refl _)

end Words

section Stages

variable {layout : EntryLayout} {m : Machine} {place : EntryPlace}

/-- An instruction that writes `THREAD_ESCAPES`. -/
def countsEscape : Instr → Bool
  | .store64 dst _ => dst == atFs tcbThreadEscapes
  | _ => false

/-- How far a thread has come in the instructions of an entry. -/
def stageBehind (code : List Instr) : Stage :=
  if code = [] then .sandbox else if code.any countsEscape then .counted else .entered

/-- The stage of a thread: whether `IN_SYSCALL` is raised and the escape is counted. -/
def EntryPlace.stage : EntryPlace → Stage
  | .sandbox => .sandbox
  | .entering escape _ pc => stageBehind (escape.enter.take pc)
  | .locking _ _ _ => .counted
  | .calling _ _ => .counted
  | .running _ _ _ => .counted
  | .unlocking _ _ _ => .counted
  | .trapping _ => .entered
  | .leaving escape _ pc => stageBehind (escape.enter ++ escape.leave.take pc)
  | .resuming _ _ => .sandbox

/-- The way in behind its first instruction. -/
private theorem flag_entered {entered : Machine} {escape : Escape} {count : Nat}
    (high : entered.fsBase + 0x10000 < 2 ^ 64) (positive : 0 < count) :
    (run (escape.enter.take count) entered).mem (entered.fsBase + tcbInSyscall) = 1 := by
  obtain ⟨rest, isEnter, spares⟩ := enter_flag escape
  obtain ⟨before, rfl⟩ : ∃ before, count = before + 1 :=
    ⟨count - 1, (Nat.sub_add_cancel positive).symm⟩
  let raised := (Instr.storeImm8 (atFs tcbInSyscall) 1).exec entered
  have base : raised.fsBase = entered.fsBase := fsBase_exec _ _
  have addr : entered.addr (atFs tcbInSyscall) = entered.fsBase + tcbInSyscall :=
    addr_tcb high (by decide)
  have isRaised : raised.mem (entered.fsBase + tcbInSyscall) = 1 := by
    change ByteMem.store _ (entered.addr (atFs tcbInSyscall)) 1 1 _ = 1
    rw [addr, ByteMem.store, if_pos ⟨Nat.le_refl _, Nat.lt_succ_self _⟩, Nat.sub_self]
    rfl
  rw [isEnter, List.take_succ_cons, run_cons, ← isRaised]
  exact mem_run_spared (fun instr listed => spares instr (List.mem_of_mem_take listed))
    (by rw [base]; omega) (by rw [base]) (by rw [base]; omega)

/-- Behind the way in the flag stays raised as long as the block is as it was. -/
private theorem flag_past {escape : Escape} {entered released : Machine}
    (past : Past escape entered released) (base : released.fsBase = m.fsBase)
    (high : m.fsBase + 0x10000 < 2 ^ 64) :
    released.mem (m.fsBase + tcbInSyscall) = 1 := by
  have enteredBase : entered.fsBase = m.fsBase := by
    rw [← base, Machine.fsBase, Machine.fsBase, past.segmentBase]
  have positive : 0 < escape.enter.length := by
    obtain ⟨rest, isEnter, _⟩ := enter_flag escape
    rw [isEnter]
    exact Nat.succ_pos _
  have whole : (run (escape.enter.take escape.enter.length) entered).mem
      (entered.fsBase + tcbInSyscall) = 1 :=
    flag_entered (by rw [enteredBase]; exact high) positive
  rw [List.take_length] at whole
  rw [← enteredBase, past.header _ ⟨by rw [tcbInSyscall]; omega, by rw [tcbInSyscall]; omega⟩]
  exact whole

private theorem stageBehind_inside {code : List Instr} (notEmpty : code ≠ []) :
    stageBehind code ≠ .sandbox := by
  rw [stageBehind, if_neg notEmpty]
  split <;> exact Stage.noConfusion

/-- `IN_SYSCALL` is raised exactly where a thread has entered. -/
theorem flag_of_stage (safe : EntrySafe layout m place) :
    m.mem (m.fsBase + tcbInSyscall) = if place.stage = .sandbox then 0 else 1 := by
  have high := safe.block.high
  cases place with
  | sandbox => exact safe.place
  | entering escape entered pc =>
      obtain ⟨left, below, same⟩ := safe.place
      have base : (run (escape.enter.take pc) entered).fsBase = m.fsBase := same.fsBase.symm
      have enteredBase : entered.fsBase = m.fsBase := (fsBase_run _ _).symm.trans base
      rw [same.bytes _ (by rw [base, tcbInSyscall]; omega)
        (by rw [base, tcbInSyscall]; omega), ← enteredBase]
      cases pc with
      | zero => exact left.flag
      | succ pc =>
          have some : escape.enter.take (pc + 1) ≠ [] := by
            rw [← List.length_pos_iff, List.length_take]
            omega
          rw [EntryPlace.stage, if_neg (stageBehind_inside some)]
          exact flag_entered (by rw [enteredBase]; exact high) (Nat.succ_pos pc)
  | locking func entered stage => exact flag_past safe.place.2.1 rfl high
  | calling func entered => exact flag_past safe.place.2 rfl high
  | running func entered called =>
      obtain ⟨left, within⟩ := safe.place
      let released : Machine := { m with
        regs := (run (Escape.function func).enter entered).regs }
      have past : Past (.function func) entered released :=
        ⟨within.segmentBase, within.header, rfl, fun reg listed =>
          regs_run_other fun instr listedInstr =>
            enter_calleeSaved _ instr listedInstr reg listed⟩
      have raised : released.mem (m.fsBase + tcbInSyscall) = 1 := flag_past past rfl high
      exact raised
  | unlocking func entered cleared => exact flag_past safe.place.2.1 rfl high
  | trapping entered => exact flag_past safe.place.2 rfl high
  | leaving escape entered pc =>
      obtain ⟨left, below, released, past, same⟩ := safe.place
      obtain ⟨front, isLeave, spares⟩ := leave_flag escape
      have base : (run (escape.leave.take pc) released).fsBase = m.fsBase := same.fsBase.symm
      have releasedBase : released.fsBase = m.fsBase := (fsBase_run _ _).symm.trans base
      have isFront : escape.leave.take pc = front.take pc := by
        rw [isLeave, List.length_append, List.length_singleton] at below
        rw [isLeave, List.take_append_of_le_length (by omega)]
      have some : escape.enter ++ escape.leave.take pc ≠ [] := by
        obtain ⟨rest, isEnter, _⟩ := enter_flag escape
        rw [isEnter]
        exact List.cons_ne_nil _ _
      rw [EntryPlace.stage, if_neg (stageBehind_inside some),
        same.bytes _ (by rw [base, tcbInSyscall]; omega)
          (by rw [base, tcbInSyscall]; omega), isFront]
      refine (mem_run_spared (fun instr listed => spares instr (List.mem_of_mem_take listed))
        (by rw [releasedBase]; omega) (by rw [releasedBase])
        (by rw [releasedBase]; omega)).trans ?_
      exact flag_past past releasedBase high
  | resuming func entered =>
      obtain ⟨left, released, past, same⟩ := safe.place
      exact flag_left safe.block same

end Stages

section Entries

variable {code : CCode} {layout : EntryLayout} {begin now : EntrySystem}
  {log : List (Nat × RuntimeFunction)} {index : Nat} {thread : EntryThread}

/--
In every interleaving `IN_SYSCALL` of a thread is raised exactly from the first instruction
of an entry to its last one, and a thread goes on behind an entry with its stack pointer,
its callee-saved registers and its continuation, and one more escape.
-/
theorem entries_return (booted : begin.Booted layout)
    (run : (entrySections code layout).Run begin log now)
    (isThread : now.threads index = some thread) :
    (now.mem (thread.tcb + tcbInSyscall) = if thread.place.stage = .sandbox then 0 else 1) ∧
    ∀ func entered, thread.place = .resuming func entered →
      WentOn entered (now.machine thread) := by
  have invariant := (entrySections_guards code layout).reached booted.invariant run
  have safe := invariant.safe index thread isThread
  refine ⟨flag_of_stage safe, fun func entered place => ?_⟩
  rw [place] at safe
  obtain ⟨left, released, past, same⟩ := safe.place
  have base : entered.fsBase = (now.machine thread).fsBase := by
    rw [same.fsBase, fsBase_run, Machine.fsBase, Machine.fsBase, past.segmentBase]
  exact wentOn_of_past (by rw [base]; exact safe.block) past same

end Entries

namespace EntryExample

theorem entries_return_clone : ∃ now thread entered,
    (entrySections code layout).Run booted [(0, .rockClone)] now ∧
    now.mem (thread.tcb + tcbInSyscall) = 0 ∧ WentOn entered (now.machine thread) := by
  obtain ⟨system, m, entered, run⟩ := clone_called
  obtain ⟨flag, wentOn⟩ := entries_return booted_layout run threads_zero
  exact ⟨_, _, entered, run, flag, wentOn .rockClone entered rfl⟩

end EntryExample

end Mcfi
