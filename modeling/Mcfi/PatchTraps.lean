import Mcfi.Lib.X86

namespace Mcfi

open X86

/-!
# The traps of online patching

A call that is not patched yet calls `__patch_call`, and a function that is not
patched yet calls `__patch_entry`.  Both go on to `online_patch`, which saves the
registers in the thread control block, runs the C handler on the stack of the runtime,
restores the registers and goes back to the patched instruction.  The vector registers
are saved with `movq`, which moves their low halves only.
-/

section Traps

/-- `SELF`. -/
def tcbSelf : Nat := 0x08

/-- `THREAD_ESCAPES`. -/
def tcbThreadEscapes : Nat := 0x10

/-- `IN_SYSCALL`. -/
def tcbInSyscall : Nat := 0x18

/-- `CONTINUATION`. -/
def tcbContinuation : Nat := 0x20

/-- `USER_CTX`. -/
def tcbUserCtx : Nat := 0x30

/-- What traps: a call site or the entry of a function. -/
inductive PatchKind where
  | call
  | entry
  deriving DecidableEq, Repr

/-- `__patch_call` and `__patch_entry`, up to the jump to the runtime. -/
def patchStub : PatchKind → List Instr
  | .call => [
      .store64 (atFs 0x88) .r11,
      .pop .r11,
      .store64 (atFs 0x20) .r11,
      .subMem32 (atFs 0x20) 5]
  | .entry => [
      .pop .r11,
      .sub32 .r11 5,
      .store64 (atFs 0x20) .r11]

/-- `online_patch`, up to `spin_lock`. -/
def onlinePatchEnter : List Instr := [
  .storeImm8 (atFs tcbInSyscall) 1,
  .store64 (atFs tcbUserCtx) .rax,
  .store64 (atFs (tcbUserCtx + 0x10)) .rcx,
  .store64 (atFs (tcbUserCtx + 0x18)) .rdx,
  .store64 (atFs (tcbUserCtx + 0x20)) .rdi,
  .store64 (atFs (tcbUserCtx + 0x28)) .rsi,
  .store64 (atFs (tcbUserCtx + 0x38)) .rsp,
  .store64 (atFs (tcbUserCtx + 0x40)) .r8,
  .store64 (atFs (tcbUserCtx + 0x48)) .r9,
  .store64 (atFs (tcbUserCtx + 0x50)) .r10,
  .storeLow (atFs (tcbUserCtx + 0x90)) 0,
  .storeLow (atFs (tcbUserCtx + 0x98)) 1,
  .storeLow (atFs (tcbUserCtx + 0xa0)) 2,
  .storeLow (atFs (tcbUserCtx + 0xa8)) 3,
  .storeLow (atFs (tcbUserCtx + 0xb0)) 4,
  .storeLow (atFs (tcbUserCtx + 0xb8)) 5,
  .storeLow (atFs (tcbUserCtx + 0xc0)) 6,
  .storeLow (atFs (tcbUserCtx + 0xc8)) 7,
  .stmxcsr (atFs (tcbUserCtx + 0x88)),
  .fnstcw (atFs (tcbUserCtx + 0x80)),
  -- atomic_incr_thread_escapes
  .load64 .rax (atFs tcbThreadEscapes),
  .add64 .rax 1,
  .store64 (atFs tcbThreadEscapes) .rax,
  -- switch_runtime_stack
  .load64 .rsp (atFs tcbSelf),
  .add64 .rsp 0xffc0,
  .mov64 .rdi .r11]

/-- `online_patch`, behind `spin_unlock`, up to the jump to the continuation. -/
def onlinePatchLeave : List Instr := [
  .load64 .rax (atFs tcbUserCtx),
  .load64 .rcx (atFs (tcbUserCtx + 0x10)),
  .load64 .rdx (atFs (tcbUserCtx + 0x18)),
  .load64 .rdi (atFs (tcbUserCtx + 0x20)),
  .load64 .rsi (atFs (tcbUserCtx + 0x28)),
  .load64 .rsp (atFs (tcbUserCtx + 0x38)),
  .load64 .r8 (atFs (tcbUserCtx + 0x40)),
  .load64 .r9 (atFs (tcbUserCtx + 0x48)),
  .load64 .r10 (atFs (tcbUserCtx + 0x50)),
  .load64 .r11 (atFs (tcbUserCtx + 0x58)),
  .loadLow 0 (atFs (tcbUserCtx + 0x90)),
  .loadLow 1 (atFs (tcbUserCtx + 0x98)),
  .loadLow 2 (atFs (tcbUserCtx + 0xa0)),
  .loadLow 3 (atFs (tcbUserCtx + 0xa8)),
  .loadLow 4 (atFs (tcbUserCtx + 0xb0)),
  .loadLow 5 (atFs (tcbUserCtx + 0xb8)),
  .loadLow 6 (atFs (tcbUserCtx + 0xc0)),
  .loadLow 7 (atFs (tcbUserCtx + 0xc8)),
  .fldcw (atFs (tcbUserCtx + 0x80)),
  .ldmxcsr (atFs (tcbUserCtx + 0x88)),
  .storeImm8 (atFs tcbInSyscall) 0]

/--
Exchange the low byte of `r11` with the lock, which other threads may have changed:
`seen` is what it was.
-/
def exchangeLock (lock : Nat) (imm seen : BitVec 8) (m : Machine) : Machine :=
  let m := (Instr.movImm8 .r11 imm).exec m
  (Instr.movImm8 .r11 seen).exec (m.store lock 1 imm.toNat)

/-- `spin_lock`: try until the lock was not taken. -/
inductive SpinLock (lock : Nat) : Machine → Machine → Prop where
  | taken {m : Machine} : SpinLock lock m (exchangeLock lock 1 0 m)
  | again {m after : Machine} {seen : BitVec 8} (held : seen ≠ 0)
      (later : SpinLock lock (exchangeLock lock 1 seen m) after) :
      SpinLock lock m after

/-- A call, up to the first instruction of what is called. -/
def callTo (returnAddress : Nat) (m : Machine) : Machine :=
  let stack := m.regs .rsp - 8
  (m.store stack.toNat 8 returnAddress).setReg .rsp stack

/--
A trap at an instruction of the program: the call to the stub, `online_patch` around
the handler, and where it goes on.
-/
def Trap (kind : PatchKind) (handler : Machine → Machine → Prop) (lock site : Nat)
    (before after : Machine) (target : Nat) : Prop :=
  ∃ locked returned returnAddress seen,
    SpinLock lock (run (patchStub kind ++ onlinePatchEnter) (callTo (site + 5) before))
        locked ∧
      handler (callTo returnAddress locked) returned ∧
      after = run onlinePatchLeave (exchangeLock lock 0 seen returned) ∧
      target = after.mem.load ((after.segmentBase .fs).toNat + tcbContinuation) 8

/-- The registers that a C function keeps, besides the stack pointer. -/
def calleeSaved : List Reg := [.rbx, .rbp, .r12, .r13, .r14, .r15]

/--
A C function, from its first instruction to behind its return: it keeps the
callee-saved registers and pops its return address, and it does not write the
continuation and the saved registers of its own thread.
-/
structure CFunction (handler : Machine → Machine → Prop) : Prop where
  calleeSaved : ∀ m after, handler m after →
    ∀ reg ∈ calleeSaved, after.regs reg = m.regs reg
  stack : ∀ m after, handler m after → after.regs .rsp = m.regs .rsp + 8
  segmentBase : ∀ m after, handler m after → after.segmentBase = m.segmentBase
  block : ∀ m after, handler m after → ∀ offset, tcbContinuation ≤ offset →
    offset < 0x100 → after.mem ((m.segmentBase .fs).toNat + offset) =
      m.mem ((m.segmentBase .fs).toNat + offset)

/--
The program runs below 4GB on a stack there, and its thread control block is above
4GB, with the stack of the runtime; the lock of the runtime is elsewhere.
-/
structure TrapsInSandbox (lock site : Nat) (m : Machine) : Prop where
  site : site + 5 < 2 ^ 32
  stackLow : 8 ≤ (m.regs .rsp).toNat
  stackHigh : (m.regs .rsp).toNat ≤ 2 ^ 32
  tcbLow : 2 ^ 32 ≤ (m.segmentBase .fs).toNat
  tcbHigh : (m.segmentBase .fs).toNat + 0x10000 < 2 ^ 64
  self : m.mem.load ((m.segmentBase .fs).toNat + tcbSelf) 8 = (m.segmentBase .fs).toNat
  lock : lock < (m.segmentBase .fs).toNat ∨ (m.segmentBase .fs).toNat + 0x10000 ≤ lock

end Traps

section Stubs

variable {kind : PatchKind} {lock site : Nat} {before : Machine}

/-- An address of the thread control block. -/
theorem addr_tcb {m : Machine} (low : (m.segmentBase .fs).toNat + 0x10000 < 2 ^ 64)
    {offset : Nat} (inside : offset < 0x10000) :
    m.addr (atFs offset) = (m.segmentBase .fs).toNat + offset :=
  addr_atFs (by omega)

theorem exec_store64 {m : Machine} {operand : MemOperand} {reg : Reg} {addr : Nat}
    (isAddr : m.addr operand = addr) :
    (Instr.store64 operand reg).exec m =
      { m with mem := m.mem.store addr 8 (m.regs reg).toNat } := by
  rw [Instr.exec, isAddr]
  rfl

/-- What a stub leaves for the runtime. -/
structure Stubbed (kind : PatchKind) (site : Nat) (before stubbed : Machine) :
    Prop where
  segmentBase : stubbed.segmentBase = before.segmentBase
  regs : ∀ reg, reg ≠ .r11 → stubbed.regs reg = before.regs reg
  xmm : stubbed.xmm = before.xmm
  mxcsr : stubbed.mxcsr = before.mxcsr
  fcw : stubbed.fcw = before.fcw
  continuation : stubbed.mem.load ((before.segmentBase .fs).toNat + tcbContinuation) 8 =
    site
  self : stubbed.mem.load ((before.segmentBase .fs).toNat + tcbSelf) 8 =
    (before.segmentBase .fs).toNat
  saved : kind = .call →
    stubbed.mem.load ((before.segmentBase .fs).toNat + (tcbUserCtx + 0x58)) 8 =
      (before.regs .r11).toNat

/-- The halves of a word that is stored. -/
theorem load_store_halves {mem : ByteMem} {addr value : Nat} (small : value < 2 ^ 32) :
    (mem.store addr 8 value).load addr 4 = value ∧
      (mem.store addr 8 value).load (addr + 4) 4 = 0 := by
  have whole := ByteMem.load_store_same mem addr
    (show value < 256 ^ 8 from Nat.lt_of_lt_of_le small (by decide))
  have halves := ByteMem.load_add (mem.store addr 8 value) addr 4 4
  have low : (mem.store addr 8 value).load addr 4 < 2 ^ 32 := ByteMem.load_lt _ _ _
  have split : value = (mem.store addr 8 value).load addr 4 +
      2 ^ 32 * (mem.store addr 8 value).load (addr + 4) 4 := whole.symm.trans halves
  omega

/-- Four bytes over a word whose upper half is zero. -/
theorem load_store_low {mem : ByteMem} {addr value low : Nat} (small : value < 2 ^ 32)
    (lowSmall : low < 2 ^ 32) :
    ((mem.store addr 8 value).store addr 4 low).load addr 8 = low := by
  have again := ByteMem.load_add ((mem.store addr 8 value).store addr 4 low) addr 4 4
  rw [ByteMem.load_store_same _ addr (show low < 256 ^ 4 from lowSmall),
    ByteMem.load_store_disjoint _ (.inr (Nat.le_refl _)),
    (load_store_halves small).2] at again
  exact again

/-- The return address of a trap is popped, and the stack is as it was. -/
theorem pop_callTo {m : Machine} {value : Nat} (low : 8 ≤ (before.regs .rsp).toNat)
    (regs : m.regs = (callTo value before).regs)
    (pushed : m.mem.load ((before.regs .rsp).toNat - 8) 8 = value) :
    (Instr.pop .r11).exec m =
      { m with regs := (before.setReg .r11 (BitVec.ofNat 64 value)).regs } := by
  have stack : m.regs .rsp = before.regs .rsp - 8 := by
    rw [regs]
    rfl
  have stackAt : (before.regs .rsp - 8).toNat = (before.regs .rsp).toNat - 8 := by
    have bound := (before.regs .rsp).isLt
    rw [BitVec.toNat_sub]
    change (2 ^ 64 - 8 + _) % _ = _
    omega
  have popped : (Instr.pop .r11).exec m =
      (m.setReg .rsp (before.regs .rsp)).setReg .r11 (BitVec.ofNat 64 value) := by
    simp only [Instr.exec, stack, stackAt, pushed, BitVec.sub_add_cancel]
  rw [popped]
  simp only [Machine.setReg]
  congr 1
  funext reg
  by_cases isR11 : reg = .r11
  · rw [if_pos isR11, if_pos isR11]
  · rw [if_neg isR11, if_neg isR11]
    by_cases isRsp : reg = .rsp
    · rw [if_pos isRsp, isRsp]
    · rw [if_neg isRsp, regs]
      exact if_neg isRsp

theorem stubbed (kind : PatchKind) (sandboxed : TrapsInSandbox lock site before) :
    Stubbed kind site before (run (patchStub kind) (callTo (site + 5) before)) := by
  have siteLow := sandboxed.site
  have stackLow := sandboxed.stackLow
  have stackHigh := sandboxed.stackHigh
  have tcbLow := sandboxed.tcbLow
  have tcbHigh := sandboxed.tcbHigh
  have stackAt : (before.regs .rsp - 8).toNat = (before.regs .rsp).toNat - 8 := by
    have bound := (before.regs .rsp).isLt
    rw [BitVec.toNat_sub]
    change (2 ^ 64 - 8 + _) % _ = _
    omega
  have returnSmall : site + 5 < 256 ^ 8 := Nat.lt_of_lt_of_le siteLow (by decide)
  have value : ((before.setReg .r11 (BitVec.ofNat 64 (site + 5))).regs .r11).toNat =
      site + 5 := Nat.mod_eq_of_lt (Nat.lt_of_lt_of_le siteLow (by decide))
  have back32 : BitVec.ofNat 32 (site + 5) - 5 = BitVec.ofNat 32 site := by
    rw [BitVec.ofNat_add]
    exact BitVec.add_sub_cancel _ _
  have pushed : (callTo (site + 5) before).mem =
      before.mem.store ((before.regs .rsp).toNat - 8) 8 (site + 5) := by
    rw [← stackAt]
    rfl
  have self : (callTo (site + 5) before).mem.load
      ((before.segmentBase .fs).toNat + tcbSelf) 8 = (before.segmentBase .fs).toNat := by
    rw [pushed, ByteMem.load_store_disjoint _ (by omega)]
    exact sandboxed.self
  cases kind with
  | call =>
      have at88 : (callTo (site + 5) before).addr (atFs 0x88) =
          (before.segmentBase .fs).toNat + 0x88 := addr_tcb tcbHigh (by decide)
      let saved := (callTo (site + 5) before).store
        ((before.segmentBase .fs).toNat + 0x88) 8 (before.regs .r11).toNat
      have popped := @pop_callTo before saved (site + 5) stackLow rfl (by
        change (ByteMem.store _ _ _ _).load _ _ = _
        rw [ByteMem.load_store_disjoint _ (by omega), pushed]
        exact ByteMem.load_store_same _ _ returnSmall)
      have ran : run (patchStub .call) (callTo (site + 5) before) =
          (Instr.subMem32 (atFs 0x20) 5).exec
            ((Instr.store64 (atFs 0x20) .r11).exec ((Instr.pop .r11).exec saved)) := by
        rw [show saved = (Instr.store64 (atFs 0x88) .r11).exec
          (callTo (site + 5) before) by rw [Instr.exec, at88]; rfl]
        rfl
      have low (m : Machine) (same : m.segmentBase = before.segmentBase) :
          m.addr (atFs 0x20) = (before.segmentBase .fs).toNat + 0x20 := by
        rw [← same]
        exact addr_tcb (by rw [same]; exact tcbHigh) (by decide)
      let ready : Machine :=
        { saved with regs := (before.setReg .r11 (BitVec.ofNat 64 (site + 5))).regs }
      let continued : Machine := { ready with
        mem := saved.mem.store ((before.segmentBase .fs).toNat + 0x20) 8 (site + 5) }
      have stored : (Instr.store64 (atFs 0x20) .r11).exec ready = continued := by
        rw [exec_store64 (low ready rfl), value]
      have subtracted : (Instr.subMem32 (atFs 0x20) 5).exec continued = { continued with
          mem := continued.mem.store ((before.segmentBase .fs).toNat + 0x20) 4 site
          zf := BitVec.ofNat 32 site == 0 } := by
        have loaded : continued.mem.load ((before.segmentBase .fs).toNat + 0x20) 4 =
            site + 5 := (load_store_halves siteLow).1
        simp only [Instr.exec, low continued rfl, loaded, back32]
        rw [BitVec.toNat_ofNat, Nat.mod_eq_of_lt (by omega)]
        rfl
      rw [ran, popped, stored, subtracted]
      refine {
        segmentBase := rfl
        regs := fun reg other => if_neg other
        xmm := rfl
        mxcsr := rfl
        fcw := rfl
        continuation := load_store_low siteLow (by omega)
        self := ?_
        saved := fun _ => ?_
      }
      · change ((ByteMem.store _ _ _ _).store _ _ _).load _ _ = _
        simp only [tcbSelf]
        rw [ByteMem.load_store_disjoint _ (by omega),
          ByteMem.load_store_disjoint _ (by omega)]
        change (ByteMem.store _ _ _ _).load _ _ = _
        rw [ByteMem.load_store_disjoint _ (by omega)]
        exact self
      · change ((ByteMem.store _ _ _ _).store _ _ _).load _ _ = _
        simp only [tcbUserCtx]
        rw [ByteMem.load_store_disjoint _ (by omega),
          ByteMem.load_store_disjoint _ (by omega)]
        exact ByteMem.load_store_same _ _ (before.regs .r11).isLt
  | entry =>
      have popped := @pop_callTo before (callTo (site + 5) before) (site + 5) stackLow
        rfl (by rw [pushed]; exact ByteMem.load_store_same _ _ returnSmall)
      let ready : Machine := { callTo (site + 5) before with
        regs := (before.setReg .r11 (BitVec.ofNat 64 (site + 5))).regs }
      let subtracted : Machine := { ready.setReg .r11 (BitVec.ofNat 64 site) with
        zf := BitVec.ofNat 32 site == 0 }
      have back : (Instr.sub32 .r11 5).exec ready = subtracted := by
        have low : ((before.setReg .r11 (BitVec.ofNat 64 (site + 5))).regs .r11).truncate 32 -
            5 = BitVec.ofNat 32 site := by
          rw [← back32]
          refine congrArg (· - 5) (BitVec.eq_of_toNat_eq ?_)
          rw [BitVec.truncate_eq_setWidth, BitVec.toNat_setWidth, value,
            BitVec.toNat_ofNat]
        have wide : (BitVec.ofNat 32 site).zeroExtend 64 = BitVec.ofNat 64 site := by
          refine BitVec.eq_of_toNat_eq ?_
          rw [BitVec.zeroExtend, BitVec.toNat_setWidth, BitVec.toNat_ofNat,
            BitVec.toNat_ofNat]
          omega
        simp only [Instr.exec, ready, low, wide]
        rfl
      have siteValue : (subtracted.regs .r11).toNat = site :=
        Nat.mod_eq_of_lt (Nat.lt_trans (by omega : site < 2 ^ 32) (by decide))
      have low : subtracted.addr (atFs 0x20) = (before.segmentBase .fs).toNat + 0x20 :=
        addr_tcb tcbHigh (by decide)
      have ran : run (patchStub .entry) (callTo (site + 5) before) =
          { subtracted with
            mem := subtracted.mem.store ((before.segmentBase .fs).toNat + 0x20) 8
              site } := by
        change (Instr.store64 (atFs 0x20) .r11).exec ((Instr.sub32 .r11 5).exec
          ((Instr.pop .r11).exec (callTo (site + 5) before))) = _
        rw [popped, show (Instr.sub32 .r11 5).exec _ = subtracted from back,
          exec_store64 low, siteValue]
      rw [ran]
      refine {
        segmentBase := rfl
        regs := fun reg other => ?_
        xmm := rfl
        mxcsr := rfl
        fcw := rfl
        continuation :=
          ByteMem.load_store_same _ _ (Nat.lt_trans (by omega : site < 2 ^ 32) (by decide))
        self := ?_
        saved := by rintro ⟨⟩
      }
      · exact (if_neg other).trans (if_neg other)
      · change (ByteMem.store _ _ _ _).load _ _ = _
        simp only [tcbSelf]
        rw [ByteMem.load_store_disjoint _ (by omega)]
        exact self

end Stubs

section Runtime

/-- The slots of the general registers. -/
def registerSlots : List Slot := [
  ⟨.reg .rax, tcbUserCtx⟩, ⟨.reg .rcx, tcbUserCtx + 0x10⟩,
  ⟨.reg .rdx, tcbUserCtx + 0x18⟩, ⟨.reg .rdi, tcbUserCtx + 0x20⟩,
  ⟨.reg .rsi, tcbUserCtx + 0x28⟩, ⟨.reg .rsp, tcbUserCtx + 0x38⟩,
  ⟨.reg .r8, tcbUserCtx + 0x40⟩, ⟨.reg .r9, tcbUserCtx + 0x48⟩,
  ⟨.reg .r10, tcbUserCtx + 0x50⟩]

/-- The slots of the vector registers. -/
def xmmSlots : List Slot := [
  ⟨.xmm 0, tcbUserCtx + 0x90⟩, ⟨.xmm 1, tcbUserCtx + 0x98⟩,
  ⟨.xmm 2, tcbUserCtx + 0xa0⟩, ⟨.xmm 3, tcbUserCtx + 0xa8⟩,
  ⟨.xmm 4, tcbUserCtx + 0xb0⟩, ⟨.xmm 5, tcbUserCtx + 0xb8⟩,
  ⟨.xmm 6, tcbUserCtx + 0xc0⟩, ⟨.xmm 7, tcbUserCtx + 0xc8⟩]

/-- What `online_patch` saves. -/
def savedSlots : List Slot :=
  registerSlots ++ xmmSlots ++
    [⟨.mxcsr, tcbUserCtx + 0x88⟩, ⟨.fcw, tcbUserCtx + 0x80⟩]

/-- The slot of `r11`, which `__patch_call` saves. -/
def r11Slot : Slot := ⟨.reg .r11, tcbUserCtx + 0x58⟩

/-- What `online_patch` restores. -/
def restoredSlots : List Slot :=
  registerSlots ++ r11Slot :: xmmSlots ++
    [⟨.fcw, tcbUserCtx + 0x80⟩, ⟨.mxcsr, tcbUserCtx + 0x88⟩]

/-- `online_patch`, between the saves and the lock. -/
def enterRuntime : List Instr := [
  .load64 .rax (atFs tcbThreadEscapes),
  .add64 .rax 1,
  .store64 (atFs tcbThreadEscapes) .rax,
  .load64 .rsp (atFs tcbSelf),
  .add64 .rsp 0xffc0,
  .mov64 .rdi .r11]

theorem onlinePatchEnter_eq : onlinePatchEnter =
    .storeImm8 (atFs tcbInSyscall) 1 :: (savedSlots.map Slot.save ++ enterRuntime) :=
  rfl

/-- From the stub to the lock. -/
theorem run_enter (kind : PatchKind) (m : Machine) :
    run (patchStub kind ++ onlinePatchEnter) m = run enterRuntime
      (run (.storeImm8 (atFs tcbInSyscall) 1 :: savedSlots.map Slot.save)
        (run (patchStub kind) m)) := by
  rw [onlinePatchEnter_eq, ← List.cons_append, run_append, run_append]

theorem onlinePatchLeave_eq : onlinePatchLeave =
    restoredSlots.map Slot.restore ++ [.storeImm8 (atFs tcbInSyscall) 0] :=
  rfl

/--
What stays between the saves and the restores: the continuation and the slots of the
thread, and the callee-saved registers.
-/
structure Carries (first second : Machine) : Prop where
  segmentBase : second.segmentBase = first.segmentBase
  block : ∀ offset, tcbContinuation ≤ offset → offset < 0x100 →
    second.mem ((first.segmentBase .fs).toNat + offset) =
      first.mem ((first.segmentBase .fs).toNat + offset)
  regs : ∀ reg ∈ calleeSaved, second.regs reg = first.regs reg

variable {first second third m after : Machine}

theorem Carries.trans (early : Carries first second) (late : Carries second third) :
    Carries first third where
  segmentBase := late.segmentBase.trans early.segmentBase
  block := fun offset low high => by
    have later := late.block offset low high
    rw [early.segmentBase] at later
    exact later.trans (early.block offset low high)
  regs := fun reg listed => (late.regs reg listed).trans (early.regs reg listed)

/-- A word of the block is carried. -/
theorem Carries.load (carries : Carries first second) {offset width : Nat}
    (low : tcbContinuation ≤ offset) (high : offset + width ≤ 0x100) :
    second.mem.load ((second.segmentBase .fs).toNat + offset) width =
      first.mem.load ((first.segmentBase .fs).toNat + offset) width := by
  rw [carries.segmentBase]
  apply ByteMem.load_congr
  intro index below
  rw [Nat.add_assoc]
  exact carries.block (offset + index) (by omega) (by omega)

/-- A store beside the block that changes no callee-saved register. -/
theorem Carries.store {addr width value : Nat} {regs : Reg → BitVec 64} (zf : Bool)
    (beside : addr + width ≤ (m.segmentBase .fs).toNat + tcbContinuation ∨
      (m.segmentBase .fs).toNat + 0x100 ≤ addr)
    (kept : ∀ reg ∈ calleeSaved, regs reg = m.regs reg) :
    Carries m { m with regs := regs, zf := zf, mem := m.mem.store addr width value } where
  segmentBase := rfl
  block := fun offset low high => ByteMem.store_other _ (by omega)
  regs := kept

/-- Exchanging the lock keeps what is carried, and the stack pointer. -/
theorem carries_exchangeLock {lock : Nat} (imm seen : BitVec 8)
    (apart : lock < (m.segmentBase .fs).toNat ∨
      (m.segmentBase .fs).toNat + 0x10000 ≤ lock) :
    Carries m (exchangeLock lock imm seen m) ∧
      (exchangeLock lock imm seen m).regs .rsp = m.regs .rsp := by
  have others : ∀ reg, reg ≠ .r11 →
      (exchangeLock lock imm seen m).regs reg = m.regs reg := fun reg other =>
    (if_neg other).trans (if_neg other)
  refine ⟨?_, others .rsp (by decide)⟩
  have kept : ∀ reg ∈ calleeSaved,
      (exchangeLock lock imm seen m).regs reg = m.regs reg := by
    intro reg listed
    refine others reg ?_
    rintro rfl
    revert listed
    decide
  exact Carries.store (m := m) m.zf (by rw [tcbContinuation]; omega) kept

/-- So does taking the lock, however often it is tried. -/
theorem carries_spinLock {lock : Nat} (spins : SpinLock lock m after)
    (apart : lock < (m.segmentBase .fs).toNat ∨
      (m.segmentBase .fs).toNat + 0x10000 ≤ lock) :
    Carries m after ∧ after.regs .rsp = m.regs .rsp := by
  induction spins with
  | taken => exact carries_exchangeLock 1 0 apart
  | again held later inductionHypothesis =>
      rename_i seen
      obtain ⟨carried, stack⟩ := carries_exchangeLock 1 seen apart
      obtain ⟨rest, restStack⟩ := inductionHypothesis (by
        rw [carried.segmentBase]
        exact apart)
      exact ⟨carried.trans rest, restStack.trans stack⟩

/-- Between the saves and the lock: the stack pointer becomes that of the runtime. -/
theorem carries_enterRuntime
    (tcbHigh : (m.segmentBase .fs).toNat + 0x10000 < 2 ^ 64)
    (self : m.mem.load ((m.segmentBase .fs).toNat + tcbSelf) 8 =
      (m.segmentBase .fs).toNat) :
    Carries m (run enterRuntime m) ∧
      ((run enterRuntime m).regs .rsp).toNat = (m.segmentBase .fs).toNat + 0xffc0 := by
  let counted : Machine := (Instr.add64 .rax 1).exec
    ((Instr.load64 .rax (atFs tcbThreadEscapes)).exec m)
  let escaped : Machine := { counted with
    mem := m.mem.store ((m.segmentBase .fs).toNat + tcbThreadEscapes) 8
      (counted.regs .rax).toNat }
  have stored : (Instr.store64 (atFs tcbThreadEscapes) .rax).exec counted = escaped :=
    exec_store64 (m := counted) (addr_tcb tcbHigh (by decide))
  have ran : run enterRuntime m = run [
      .load64 .rsp (atFs tcbSelf),
      .add64 .rsp 0xffc0,
      .mov64 .rdi .r11] escaped := by
    rw [← stored]
    rfl
  have selfAddr : escaped.addr (atFs tcbSelf) = (m.segmentBase .fs).toNat + tcbSelf :=
    addr_tcb tcbHigh (by decide)
  have selfLoaded : escaped.mem.load ((m.segmentBase .fs).toNat + tcbSelf) 8 =
      (m.segmentBase .fs).toNat :=
    (ByteMem.load_store_disjoint _ (by rw [tcbSelf, tcbThreadEscapes]; omega)).trans self
  have stack : (run enterRuntime m).regs .rsp =
      BitVec.ofNat 64 (m.segmentBase .fs).toNat + 0xffc0 := by
    rw [ran, ← selfLoaded, ← selfAddr]
    rfl
  refine ⟨⟨?_, ?_, ?_⟩, ?_⟩
  · rw [ran]
    rfl
  · intro offset low high
    rw [ran]
    exact ByteMem.store_other _ (by
      rw [tcbContinuation] at low
      rw [tcbThreadEscapes]
      omega)
  · intro reg listed
    rw [ran]
    cases reg <;> first
      | exact absurd listed (by decide)
      | rfl
  · rw [stack, BitVec.ofNat_toNat, BitVec.setWidth_eq, BitVec.toNat_add]
    change (_ + 0xffc0) % 2 ^ 64 = _
    omega

/-- The call of the handler writes the stack of the runtime. -/
theorem carries_callTo {returnAddress : Nat}
    (tcbHigh : (m.segmentBase .fs).toNat + 0x10000 < 2 ^ 64)
    (stack : (m.regs .rsp).toNat = (m.segmentBase .fs).toNat + 0xffc0) :
    Carries m (callTo returnAddress m) := by
  have stackAt : (m.regs .rsp - 8).toNat = (m.segmentBase .fs).toNat + 0xffb8 := by
    rw [BitVec.toNat_sub, stack]
    change (2 ^ 64 - 8 + _) % _ = _
    omega
  apply Carries.store (m := m) m.zf
  · rw [stackAt]
    omega
  · intro reg listed
    refine if_neg ?_
    rintro rfl
    revert listed
    decide

/-- So does the handler, which keeps the block. -/
theorem CFunction.carries {handler : Machine → Machine → Prop}
    (handles : CFunction handler) (ran : handler m after) : Carries m after where
  segmentBase := handles.segmentBase m after ran
  block := handles.block m after ran
  regs := handles.calleeSaved m after ran

end Runtime

section Invisible

variable {kind : PatchKind} {handler : Machine → Machine → Prop} {lock site : Nat}
  {before after saved leaving : Machine} {target : Nat}

/-- The cells that can be live at the instruction that trapped. -/
def liveCells (kind : PatchKind) : List Cell :=
  savedSlots.map Slot.cell ++ calleeSaved.map Cell.reg ++
    match kind with
    | .call => [.reg .r11]
    | .entry => []

/-- A trap is invisible when it goes on at the same instruction and no live cell changed. -/
def Invisible (kind : PatchKind) (site : Nat) (before after : Machine) (target : Nat) :
    Prop :=
  target = site ∧ ∀ cell ∈ liveCells kind, cell.get after = cell.get before

/-- The block is saved: what the restores will read. -/
structure BlockSaved (kind : PatchKind) (site : Nat) (before saved : Machine) : Prop where
  segmentBase : saved.segmentBase = before.segmentBase
  calleeSaved : ∀ reg ∈ calleeSaved, saved.regs reg = before.regs reg
  slots : ∀ slot ∈ savedSlots, saved.mem.load
    ((before.segmentBase .fs).toNat + slot.offset) slot.cell.width = slot.saved before
  r11 : kind = .call → saved.mem.load
    ((before.segmentBase .fs).toNat + r11Slot.offset) 8 = (before.regs .r11).toNat
  continuation : saved.mem.load ((before.segmentBase .fs).toNat + tcbContinuation) 8 = site
  self : saved.mem.load ((before.segmentBase .fs).toNat + tcbSelf) 8 =
    (before.segmentBase .fs).toNat

/-- The stub and the saves. -/
theorem blockSaved (sandboxed : TrapsInSandbox lock site before) :
    BlockSaved kind site before (run
      (.storeImm8 (atFs tcbInSyscall) 1 :: savedSlots.map Slot.save)
      (run (patchStub kind) (callTo (site + 5) before))) := by
  have stub := stubbed kind sandboxed
  have tcbHigh := sandboxed.tcbHigh
  generalize run (patchStub kind) (callTo (site + 5) before) = stubbed at stub ⊢
  let marked : Machine := { stubbed with
    mem := stubbed.mem.store ((before.segmentBase .fs).toNat + tcbInSyscall) 1 1 }
  have isMarked : (Instr.storeImm8 (atFs tcbInSyscall) 1).exec stubbed = marked := by
    rw [Instr.exec, addr_tcb (by rw [stub.segmentBase]; exact tcbHigh) (by decide),
      stub.segmentBase]
    rfl
  have ran : run (.storeImm8 (atFs tcbInSyscall) 1 :: savedSlots.map Slot.save) stubbed =
      run (savedSlots.map Slot.save) marked := by
    rw [run_cons, isMarked]
  have base : marked.segmentBase = before.segmentBase := stub.segmentBase
  have kept : Saved marked savedSlots _ := run_saves {
    fits := fun slot listed => by
      have inBlock : ∀ slot ∈ savedSlots, slot.stop ≤ 0x100 := by decide
      have stop := inBlock slot listed
      rw [base]
      omega
    apart := by decide
  }
  have inSlots := kept.inSlots
  have others := kept.others
  rw [base] at inSlots others
  rw [ran]
  -- a word outside the slots and `insyscall` is what the stub left
  have carried : ∀ offset, offset + 8 ≤ tcbInSyscall ∨ tcbInSyscall + 1 ≤ offset →
      (∀ slot ∈ savedSlots, offset + 8 ≤ slot.offset ∨ slot.stop ≤ offset) →
      (run (savedSlots.map Slot.save) marked).mem.load
          ((before.segmentBase .fs).toNat + offset) 8 =
        stubbed.mem.load ((before.segmentBase .fs).toNat + offset) 8 := by
    intro offset beside outside
    apply ByteMem.load_congr
    intro index below
    rw [others _ fun slot listed => by
      have apart := outside slot listed
      omega]
    exact ByteMem.store_other _ (by omega)
  have regs : ∀ reg, reg ≠ .r11 →
      (run (savedSlots.map Slot.save) marked).regs reg = before.regs reg := by
    intro reg other
    rw [kept.onlyMem]
    exact stub.regs reg other
  refine {
    segmentBase := ?_
    calleeSaved := fun reg listed => ?_
    slots := fun slot listed => ?_
    r11 := fun isCall => ?_
    continuation := ?_
    self := ?_
  }
  · rw [kept.onlyMem]
    exact base
  · apply regs reg
    rintro rfl
    revert listed
    decide
  · rw [inSlots slot listed, Slot.saved, Slot.saved]
    congr 1
    have notR11 : slot.cell ≠ .reg .r11 := by
      revert slot
      decide
    obtain ⟨cell, offset⟩ := slot
    cases cell with
    | reg name =>
        exact congrArg BitVec.toNat (stub.regs name fun same =>
          notR11 (congrArg Cell.reg same))
    | xmm name => exact congrArg (fun xmm => (xmm name).toNat) stub.xmm
    | mxcsr => exact congrArg BitVec.toNat stub.mxcsr
    | fcw => exact congrArg BitVec.toNat stub.fcw
  · rw [carried _ (by decide) (by decide)]
    exact stub.saved isCall
  · rw [carried _ (by decide) (by decide)]
    exact stub.continuation
  · rw [carried _ (by decide) (by decide)]
    exact stub.self

/-- What the program finds at the instruction where it goes on. -/
structure Resumed (kind : PatchKind) (site : Nat) (before after : Machine)
    (target : Nat) : Prop where
  slots : ∀ slot ∈ savedSlots, slot.cell.get after = slot.saved before
  calleeSaved : ∀ reg ∈ calleeSaved, after.regs reg = before.regs reg
  r11 : kind = .call → after.regs .r11 = before.regs .r11
  target : target = site

/-- The restores, when the block is what was saved. -/
theorem BlockSaved.resumed (block : BlockSaved kind site before saved)
    (tcbHigh : (before.segmentBase .fs).toNat + 0x10000 < 2 ^ 64)
    (carries : Carries saved leaving) :
    Resumed kind site before (run onlinePatchLeave leaving)
      ((run onlinePatchLeave leaving).mem.load
        (((run onlinePatchLeave leaving).segmentBase .fs).toNat + tcbContinuation) 8) := by
  have base : leaving.segmentBase = before.segmentBase :=
    carries.segmentBase.trans block.segmentBase
  have inBlock : ∀ slot ∈ restoredSlots, slot.stop ≤ 0x100 := by decide
  obtain ⟨restored, untouched, mem, segmentBase⟩ :=
    run_restores (m := leaving) (fun slot listed => by
      have stop := inBlock slot listed
      rw [base]
      omega) (by decide)
  -- the loads read what was saved
  have loads : ∀ {offset width : Nat}, tcbContinuation ≤ offset →
      offset + width ≤ 0x100 →
      leaving.mem.load ((leaving.segmentBase .fs).toNat + offset) width =
        saved.mem.load ((before.segmentBase .fs).toNat + offset) width := by
    intro offset width low high
    rw [← block.segmentBase]
    exact carries.load low high
  rw [onlinePatchLeave_eq, run_append]
  generalize run (restoredSlots.map Slot.restore) leaving = popped at *
  have left : run [.storeImm8 (atFs tcbInSyscall) 0] popped =
      { popped with
        mem := popped.mem.store ((before.segmentBase .fs).toNat + tcbInSyscall) 1 0 } := by
    have addr : popped.addr (atFs tcbInSyscall) =
        (before.segmentBase .fs).toNat + tcbInSyscall := by
      rw [← base, ← segmentBase]
      exact addr_tcb (by rw [segmentBase, base]; exact tcbHigh) (by decide)
    rw [← addr]
    rfl
  have same : ∀ cell : Cell,
      cell.get (run [.storeImm8 (atFs tcbInSyscall) 0] popped) = cell.get popped := by
    intro cell
    cases cell <;> rfl
  refine {
    slots := fun slot listed => ?_
    calleeSaved := fun reg listed => ?_
    r11 := fun isCall => ?_
    target := ?_
  }
  · have restores : slot ∈ restoredSlots := by
      revert slot
      decide
    have low : ∀ slot ∈ restoredSlots, tcbContinuation ≤ slot.offset := by decide
    rw [same, restored slot restores, loads (low slot restores) (inBlock slot restores)]
    exact block.slots slot listed
  · have notRestored : ∀ reg ∈ Mcfi.calleeSaved,
        .reg reg ∉ restoredSlots.map Slot.cell := by decide
    have kept := untouched (.reg reg) (notRestored reg listed)
    rw [← same] at kept
    have carried := (carries.regs reg listed).trans (block.calleeSaved reg listed)
    exact (BitVec.eq_of_toNat_eq kept).trans carried
  · have restores := restored r11Slot (by decide)
    rw [← same] at restores
    exact BitVec.eq_of_toNat_eq
      (restores.trans ((loads (by decide) (by decide)).trans (block.r11 isCall)))
  · rw [left]
    change ByteMem.load (ByteMem.store _ _ _ _) ((popped.segmentBase .fs).toNat + _) 8 = _
    rw [segmentBase, base, ByteMem.load_store_disjoint _ (by
        rw [tcbContinuation, tcbInSyscall]
        omega), mem, ← base]
    exact (loads (by decide) (by decide)).trans block.continuation

/-- From the saved block to the restores, whatever the handler does. -/
theorem BlockSaved.carries {locked returned : Machine} {returnAddress : Nat}
    {seen : BitVec 8} (block : BlockSaved kind site before saved)
    (handles : CFunction handler) (sandboxed : TrapsInSandbox lock site before)
    (spins : SpinLock lock (run enterRuntime saved) locked)
    (ran : handler (callTo returnAddress locked) returned) :
    Carries saved (exchangeLock lock 0 seen returned) := by
  have tcbHigh : (saved.segmentBase .fs).toNat + 0x10000 < 2 ^ 64 := by
    rw [block.segmentBase]
    exact sandboxed.tcbHigh
  have apart : lock < (saved.segmentBase .fs).toNat ∨
      (saved.segmentBase .fs).toNat + 0x10000 ≤ lock := by
    rw [block.segmentBase]
    exact sandboxed.lock
  obtain ⟨entering, stack⟩ := carries_enterRuntime tcbHigh (by
    rw [block.segmentBase]
    exact block.self)
  obtain ⟨locking, lockedStack⟩ := carries_spinLock spins (by
    rw [entering.segmentBase]
    exact apart)
  have toLocked := entering.trans locking
  have calling : Carries locked (callTo returnAddress locked) := carries_callTo
    (by rw [toLocked.segmentBase]; exact tcbHigh)
    (by rw [toLocked.segmentBase, lockedStack]; exact stack)
  have toReturned := (toLocked.trans calling).trans (handles.carries ran)
  have unlocking := carries_exchangeLock (m := returned) 0 seen (by
    rw [toReturned.segmentBase]
    exact apart)
  exact toReturned.trans unlocking.1

/-- A trap, from the instruction that traps to where the program goes on. -/
theorem resumed (handles : CFunction handler) (sandboxed : TrapsInSandbox lock site before)
    (trap : Trap kind handler lock site before after target) :
    Resumed kind site before after target := by
  obtain ⟨locked, returned, returnAddress, seen, spins, ran, isAfter, isTarget⟩ := trap
  rw [run_enter] at spins
  rw [isTarget, isAfter]
  have block : BlockSaved kind site before _ := blockSaved sandboxed
  exact block.resumed sandboxed.tcbHigh (block.carries handles sandboxed spins ran)

/-- The vector registers that can carry arguments. -/
theorem xmm_mem_savedSlots {reg : Fin 16} (argument : reg < 8) :
    (⟨.xmm reg, tcbUserCtx + 0x90 + 8 * reg⟩ : Slot) ∈ savedSlots := by
  revert reg
  decide

/-- What the program finds is what it had exactly when the saved halves were all. -/
theorem Resumed.unchanged_iff (resumed : Resumed kind site before after target) :
    Invisible kind site before after target ↔
      ∀ reg : Fin 16, reg < 8 → (before.xmm reg).toNat < 2 ^ 64 := by
  constructor
  · rintro ⟨-, unchanged⟩ reg argument
    have listed := xmm_mem_savedSlots argument
    have restored := resumed.slots _ listed
    rw [unchanged _ (List.mem_append_left _ (List.mem_append_left _
      (List.mem_map_of_mem listed)))] at restored
    have whole : (before.xmm reg).toNat = (before.xmm reg).toNat % 256 ^ 8 := restored
    exact Nat.lt_of_le_of_lt (Nat.le_of_eq whole) (Nat.mod_lt _ (by decide))
  · intro small
    refine ⟨resumed.target, fun cell live => ?_⟩
    rcases List.mem_append.mp live with listed | isR11
    · rcases List.mem_append.mp listed with inSlot | keptByC
      · obtain ⟨slot, inSlots, rfl⟩ := List.mem_map.mp inSlot
        rw [resumed.slots slot inSlots]
        apply Nat.mod_eq_of_lt
        have arguments : ∀ slot ∈ savedSlots, ∀ reg, slot.cell = .xmm reg → reg < 8 := by
          decide
        have argument := arguments slot inSlots
        obtain ⟨cell, offset⟩ := slot
        cases cell with
        | reg name => exact (before.regs name).isLt
        | xmm name => exact small name (argument name rfl)
        | mxcsr => exact before.mxcsr.isLt
        | fcw => exact before.fcw.isLt
      · obtain ⟨reg, isSaved, rfl⟩ := List.mem_map.mp keptByC
        exact congrArg BitVec.toNat (resumed.calleeSaved reg isSaved)
    · cases kind with
      | call =>
          rw [List.mem_singleton.mp isR11]
          exact congrArg BitVec.toNat (resumed.r11 rfl)
      | entry => exact nomatch isR11

/--
A trap is invisible if and only if the upper halves of the vector registers that can
carry arguments are zero.
-/
theorem invisible_iff (kind : PatchKind) (handles : CFunction handler)
    (sandboxed : TrapsInSandbox lock site before)
    (trap : Trap kind handler lock site before after target) :
    Invisible kind site before after target ↔
      ∀ reg : Fin 16, reg < 8 → (before.xmm reg).toNat < 2 ^ 64 := by
  have resumed := resumed handles sandboxed trap
  exact resumed.unchanged_iff

/-- A handler that clears a caller-saved register and returns. -/
def clearingHandler (m after : Machine) : Prop :=
  after = (m.setReg .rax 0).setReg .rsp (m.regs .rsp + 8)

theorem clearingHandler_cFunction : CFunction clearingHandler where
  calleeSaved := by
    rintro m after rfl reg listed
    cases reg <;> first
      | exact absurd listed (by decide)
      | rfl
  stack := by
    rintro m after rfl
    rfl
  segmentBase := by
    rintro m after rfl
    rfl
  block := by
    rintro m after rfl offset low high
    rfl

/-- A thread whose first vector register holds `value`. -/
def vectorThread (value : BitVec 128) : Machine where
  regs := fun reg => if reg = .rsp then 0x8000 else 7
  xmm := fun reg => if reg = 0 then value else 0
  mxcsr := 0x1f80
  fcw := 0x37f
  segmentBase := fun _ => 0x100000000
  zf := false
  mem := ByteMem.store (fun _ => 0) (0x100000000 + tcbSelf) 8 0x100000000

theorem vectorThread_sandboxed (value : BitVec 128) :
    TrapsInSandbox 0x100010000 0x1000 (vectorThread value) where
  site := by decide
  stackLow := show 8 ≤ (0x8000#64).toNat by decide
  stackHigh := show (0x8000#64).toNat ≤ 2 ^ 32 by decide
  tcbLow := show 2 ^ 32 ≤ (0x100000000#64).toNat by decide
  tcbHigh := show (0x100000000#64).toNat + 0x10000 < 2 ^ 64 by decide
  self := ByteMem.load_store_same _ _ (by decide)
  lock := .inr (show (0x100000000#64).toNat + 0x10000 ≤ 0x100010000 by decide)

/-- The thread traps, and the lock is free. -/
theorem vectorThread_traps (kind : PatchKind) (value : BitVec 128) :
    ∃ after target,
      Trap kind clearingHandler 0x100010000 0x1000 (vectorThread value) after target :=
  ⟨_, _, _, _, 0, 1, .taken, rfl, rfl, rfl⟩

/-- A call whose vector arguments are `double`s. -/
theorem doubleThread_invisible :
    ∃ after target,
      Trap .call clearingHandler 0x100010000 0x1000 (vectorThread 5) after target ∧
        Invisible .call 0x1000 (vectorThread 5) after target := by
  obtain ⟨after, target, trap⟩ := vectorThread_traps .call 5
  have invisible := invisible_iff .call clearingHandler_cFunction
    (vectorThread_sandboxed 5) trap
  exact ⟨after, target, trap, invisible.mpr (by decide)⟩

/-- A call that passes a whole vector loses its upper half. -/
theorem vector_halved :
    ∃ after target,
      Trap .call clearingHandler 0x100010000 0x1000 (vectorThread (5 <<< 64)) after
          target ∧
        ¬ Invisible .call 0x1000 (vectorThread (5 <<< 64)) after target := by
  obtain ⟨after, target, trap⟩ := vectorThread_traps .call (5 <<< 64)
  have resumed := resumed clearingHandler_cFunction
    (vectorThread_sandboxed (5 <<< 64)) trap
  refine ⟨after, target, trap, fun invisible => ?_⟩
  have small := resumed.unchanged_iff.mp invisible 0 (by decide)
  exact absurd small (by decide)

end Invisible

end Mcfi
