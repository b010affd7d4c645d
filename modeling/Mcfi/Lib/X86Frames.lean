import Mcfi.Lib.X86

/-!
# Processors that share a memory

A processor is a machine without its memory.  An instruction whose operand is a range
behind the base of `fs` reads and writes no other memory: it does the same in memories
that agree there, and leaves the rest alone.
-/

namespace X86

/-- A machine without its memory. -/
structure Core where
  regs : Reg → BitVec 64
  xmm : Fin 16 → BitVec 128
  mxcsr : BitVec 32
  fcw : BitVec 16
  segmentBase : SegmentReg → BitVec 64
  zf : Bool

/-- The processor of a machine. -/
def Machine.core (m : Machine) : Core :=
  ⟨m.regs, m.xmm, m.mxcsr, m.fcw, m.segmentBase, m.zf⟩

/-- A processor with a memory. -/
def Core.on (core : Core) (mem : ByteMem) : Machine :=
  ⟨core.regs, core.xmm, core.mxcsr, core.fcw, core.segmentBase, core.zf, mem⟩

@[simp] theorem Core.core_on (core : Core) (mem : ByteMem) : (core.on mem).core = core :=
  rfl

@[simp] theorem Core.mem_on (core : Core) (mem : ByteMem) : (core.on mem).mem = mem :=
  rfl

@[simp] theorem Machine.on_core (m : Machine) : m.core.on m.mem = m :=
  rfl

/-- The base of `fs`. -/
def Machine.fsBase (m : Machine) : Nat :=
  (m.segmentBase .fs).toNat

namespace Instr

/-- The memory that an instruction reads, apart from the stack. -/
def reads : Instr → Option (MemOperand × Nat)
  | load64 _ src => some (src, 8)
  | load32 _ src => some (src, 4)
  | subMem32 dst _ => some (dst, 4)
  | loadLow _ src => some (src, 8)
  | ldmxcsr src => some (src, 4)
  | fldcw src => some (src, 2)
  | _ => none

/-- The memory that an instruction writes, apart from the stack. -/
def writes : Instr → Option (MemOperand × Nat)
  | store64 dst _ => some (dst, 8)
  | storeImm8 dst _ => some (dst, 1)
  | subMem32 dst _ => some (dst, 4)
  | storeLow dst _ => some (dst, 8)
  | stmxcsr dst => some (dst, 4)
  | fnstcw dst => some (dst, 2)
  | _ => none

/-- Instructions that use the stack. -/
def usesStack : Instr → Bool
  | push _ => true
  | pop _ => true
  | _ => false

/-- The general registers that an instruction sets. -/
def sets : Instr → List Reg
  | load64 dst _ => [dst]
  | load32 dst _ => [dst]
  | mov64 dst _ => [dst]
  | mov32 dst _ => [dst]
  | movImm8 dst _ => [dst]
  | add64 dst _ => [dst]
  | sub32 dst _ => [dst]
  | push _ => [.rsp]
  | pop dst => [.rsp, dst]
  | _ => []

end Instr

/-- An operand in a range behind the base of `fs`. -/
def MemOperand.Within (low high : Nat) (operand : MemOperand) (width : Nat) : Prop :=
  operand = atFs operand.disp.toNat ∧ low ≤ operand.disp.toNat ∧
    operand.disp.toNat + width ≤ high

instance (low high : Nat) (operand : MemOperand) (width : Nat) :
    Decidable (operand.Within low high width) :=
  instDecidableAnd

/-- An instruction that uses only memory in a range behind the base of `fs`. -/
def Instr.Within (low high : Nat) (instr : Instr) : Prop :=
  instr.usesStack = false ∧
    (∀ used ∈ instr.reads, used.1.Within low high used.2) ∧
      ∀ used ∈ instr.writes, used.1.Within low high used.2

instance (low high : Nat) (instr : Instr) : Decidable (instr.Within low high) :=
  instDecidableAnd

/-- An instruction that writes behind the base of `fs` only, below a limit, but not in a range. -/
def Instr.Spares (limit low high : Nat) (instr : Instr) : Prop :=
  instr.usesStack = false ∧ ∀ used ∈ instr.writes,
    used.1 = atFs used.1.disp.toNat ∧ used.1.disp.toNat + used.2 ≤ limit ∧
      (used.1.disp.toNat + used.2 ≤ low ∨ high ≤ used.1.disp.toNat)

instance (limit low high : Nat) (instr : Instr) : Decidable (instr.Spares limit low high) :=
  instDecidableAnd

/-- Machines that agree, but for the memory outside of a range behind the base of `fs`. -/
structure SameWithin (low high : Nat) (first second : Machine) : Prop where
  core : second.core = first.core
  bytes : ∀ query, first.fsBase + low ≤ query → query < first.fsBase + high →
    second.mem query = first.mem query

namespace SameWithin

variable {low high : Nat} {first second third : Machine}

theorem refl (m : Machine) : SameWithin low high m m :=
  ⟨rfl, fun _ _ _ => rfl⟩

theorem fsBase (same : SameWithin low high first second) : second.fsBase = first.fsBase :=
  congrArg (fun core : Core => (core.segmentBase .fs).toNat) same.core

theorem symm (same : SameWithin low high first second) : SameWithin low high second first :=
  ⟨same.core.symm, fun query above below => by
    rw [same.fsBase] at above below
    exact (same.bytes query above below).symm⟩

theorem trans (early : SameWithin low high first second)
    (late : SameWithin low high second third) : SameWithin low high first third :=
  ⟨late.core.trans early.core, fun query above below => by
    rw [← early.bytes query above below]
    rw [← early.fsBase] at above below
    exact late.bytes query above below⟩

/-- Words in the range are the same. -/
theorem load (same : SameWithin low high first second) {offset width : Nat}
    (above : low ≤ offset) (below : offset + width ≤ high) :
    second.mem.load (first.fsBase + offset) width =
      first.mem.load (first.fsBase + offset) width := by
  apply ByteMem.load_congr
  intro index inside
  exact same.bytes _ (by omega) (by omega)

end SameWithin

section Exec

variable {limit low high : Nat} {instr : Instr} {m other : Machine}

/-- No instruction changes the base of a segment. -/
theorem segmentBase_exec (instr : Instr) (m : Machine) :
    (instr.exec m).segmentBase = m.segmentBase := by
  cases instr <;> rfl

theorem fsBase_exec (instr : Instr) (m : Machine) : (instr.exec m).fsBase = m.fsBase := by
  rw [Machine.fsBase, segmentBase_exec, Machine.fsBase]

/-- An instruction changes no byte but those that it writes. -/
theorem mem_exec_other {query : Nat} (noStack : instr.usesStack = false)
    (outside : ∀ used ∈ instr.writes,
      query < m.addr used.1 ∨ m.addr used.1 + used.2 ≤ query) :
    (instr.exec m).mem query = m.mem query := by
  cases instr with
  | store64 dst src => exact ByteMem.store_other _ (outside (dst, 8) rfl)
  | storeImm8 dst imm => exact ByteMem.store_other _ (outside (dst, 1) rfl)
  | subMem32 dst imm => exact ByteMem.store_other _ (outside (dst, 4) rfl)
  | storeLow dst src => exact ByteMem.store_other _ (outside (dst, 8) rfl)
  | stmxcsr dst => exact ByteMem.store_other _ (outside (dst, 4) rfl)
  | fnstcw dst => exact ByteMem.store_other _ (outside (dst, 2) rfl)
  | push src => cases noStack
  | pop dst => cases noStack
  | _ => rfl

/-- The address of an operand in a range. -/
theorem addr_within {operand : MemOperand} {width : Nat}
    (within : operand.Within low high width) (fits : m.fsBase + high < 2 ^ 64) :
    m.addr operand = m.fsBase + operand.disp.toNat := by
  obtain ⟨isAtFs, above, below⟩ := within
  rw [isAtFs]
  have small := operand.disp.isLt
  have disp : (atFs operand.disp.toNat).disp.toNat = operand.disp.toNat := by
    rw [← isAtFs]
  rw [disp]
  exact addr_atFs (by rw [← Machine.fsBase]; omega)

/-- So an instruction of a range changes no byte outside of the range. -/
theorem mem_exec_outside (within : instr.Within low high) (fits : m.fsBase + high < 2 ^ 64)
    {query : Nat} (outside : query < m.fsBase + low ∨ m.fsBase + high ≤ query) :
    (instr.exec m).mem query = m.mem query := by
  apply mem_exec_other within.1
  intro used written
  obtain ⟨isAtFs, above, below⟩ := within.2.2 used written
  rw [addr_within ⟨isAtFs, above, below⟩ fits]
  omega

/-- Stores of one number keep two machines the same within a range. -/
private theorem SameWithin.store (same : SameWithin low high m other) (addr width value : Nat) :
    SameWithin low high (m.store addr width value)
      ({ m with mem := other.mem } |>.store addr width value) := by
  refine ⟨rfl, fun query above below => ?_⟩
  change ByteMem.store _ _ _ _ query = ByteMem.store _ _ _ _ query
  rw [ByteMem.store, ByteMem.store]
  split
  · rfl
  · exact same.bytes query above below

/-- An instruction of a range does the same in memories that agree there. -/
theorem SameWithin.exec (same : SameWithin low high m other) (within : instr.Within low high)
    (fits : m.fsBase + high < 2 ^ 64) :
    SameWithin low high (instr.exec m) (instr.exec other) := by
  have isOther : other = { m with mem := other.mem } := by
    rw [← Machine.on_core other, same.core]
    rfl
  have loaded : ∀ used ∈ instr.reads, other.mem.load (m.addr used.1) used.2 =
      m.mem.load (m.addr used.1) used.2 := by
    intro used isRead
    have inRange := within.2.1 used isRead
    rw [addr_within inRange fits]
    exact same.load inRange.2.1 inRange.2.2
  have frame : ∀ after : Machine → Machine, (∀ machine, (after machine).mem = machine.mem) →
      (∀ mem, (after { m with mem := mem }).core = (after m).core) →
      (after m).fsBase = m.fsBase →
      SameWithin low high (after m) (after { m with mem := other.mem }) := by
    intro after keepsMem keepsCore keepsBase
    refine ⟨keepsCore _, fun query above below => ?_⟩
    rw [keepsMem, keepsMem]
    rw [keepsBase] at above below
    exact same.bytes query above below
  rw [isOther]
  cases instr with
  | load64 dst src =>
      simp only [Instr.exec]
      have sameLoad := loaded (src, 8) rfl
      change SameWithin low high _ (Machine.setReg _ dst (BitVec.ofNat 64
        (other.mem.load (m.addr src) 8)))
      rw [sameLoad]
      exact frame (fun machine => machine.setReg dst _) (fun _ => rfl) (fun _ => rfl) rfl
  | load32 dst src =>
      simp only [Instr.exec]
      have sameLoad := loaded (src, 4) rfl
      change SameWithin low high _ (Machine.setReg _ dst (BitVec.ofNat 64
        (other.mem.load (m.addr src) 4)))
      rw [sameLoad]
      exact frame (fun machine => machine.setReg dst _) (fun _ => rfl) (fun _ => rfl) rfl
  | store64 dst src => exact same.store _ _ _
  | storeImm8 dst imm => exact same.store _ _ _
  | mov64 dst src =>
      exact frame (Instr.mov64 dst src).exec (fun _ => rfl) (fun _ => rfl) rfl
  | mov32 dst src =>
      exact frame (Instr.mov32 dst src).exec (fun _ => rfl) (fun _ => rfl) rfl
  | movImm8 dst imm =>
      exact frame (Instr.movImm8 dst imm).exec (fun _ => rfl) (fun _ => rfl) rfl
  | add64 dst imm =>
      exact frame (Instr.add64 dst imm).exec (fun _ => rfl) (fun _ => rfl) rfl
  | sub32 dst imm =>
      exact frame (Instr.sub32 dst imm).exec (fun _ => rfl) (fun _ => rfl) rfl
  | subMem32 dst imm =>
      have sameLoad := loaded (dst, 4) rfl
      have stored := same.store (m.addr dst) 4
        (BitVec.ofNat 32 (m.mem.load (m.addr dst) 4) - imm).toNat
      simp only [Instr.exec]
      change SameWithin low high _ { Machine.store _ (m.addr dst) 4 (BitVec.ofNat 32
        (other.mem.load (m.addr dst) 4) - imm).toNat with
          zf := BitVec.ofNat 32 (other.mem.load (m.addr dst) 4) - imm == 0 }
      rw [sameLoad]
      exact ⟨rfl, stored.bytes⟩
  | push src => cases within.1
  | pop dst => cases within.1
  | cmp64 left right =>
      exact frame (Instr.cmp64 left right).exec (fun _ => rfl) (fun _ => rfl) rfl
  | cmp32 left right =>
      exact frame (Instr.cmp32 left right).exec (fun _ => rfl) (fun _ => rfl) rfl
  | cmpImm8 left imm =>
      exact frame (Instr.cmpImm8 left imm).exec (fun _ => rfl) (fun _ => rfl) rfl
  | testImm8 left imm =>
      exact frame (Instr.testImm8 left imm).exec (fun _ => rfl) (fun _ => rfl) rfl
  | storeLow dst src => exact same.store _ _ _
  | loadLow dst src =>
      simp only [Instr.exec]
      have sameLoad := loaded (src, 8) rfl
      change SameWithin low high _ (Machine.setXmm _ dst (BitVec.ofNat 128
        (other.mem.load (m.addr src) 8)))
      rw [sameLoad]
      exact frame (fun machine => machine.setXmm dst _) (fun _ => rfl) (fun _ => rfl) rfl
  | stmxcsr dst => exact same.store _ _ _
  | ldmxcsr src =>
      have sameLoad := loaded (src, 4) rfl
      simp only [Instr.exec]
      change SameWithin low high _ { { m with mem := other.mem } with
        mxcsr := BitVec.ofNat 32 (other.mem.load (m.addr src) 4) }
      rw [sameLoad]
      exact frame (fun machine => { machine with mxcsr := _ }) (fun _ => rfl) (fun _ => rfl) rfl
  | fnstcw dst => exact same.store _ _ _
  | fldcw src =>
      have sameLoad := loaded (src, 2) rfl
      simp only [Instr.exec]
      change SameWithin low high _ { { m with mem := other.mem } with
        fcw := BitVec.ofNat 16 (other.mem.load (m.addr src) 2) }
      rw [sameLoad]
      exact frame (fun machine => { machine with fcw := _ }) (fun _ => rfl) (fun _ => rfl) rfl

/-- An instruction keeps the bytes of a range that it spares. -/
theorem mem_exec_spared (spares : instr.Spares limit low high) (fits : m.fsBase + limit < 2 ^ 64)
    {query : Nat} (above : m.fsBase + low ≤ query) (below : query < m.fsBase + high) :
    (instr.exec m).mem query = m.mem query := by
  apply mem_exec_other spares.1
  intro used written
  obtain ⟨isAtFs, small, apart⟩ := spares.2 used written
  have within : used.1.Within 0 limit used.2 := ⟨isAtFs, by omega, by omega⟩
  rw [addr_within within fits]
  omega

/-- An instruction keeps the registers that it does not set. -/
theorem regs_exec_other {reg : Reg} (other : reg ∉ instr.sets) :
    (instr.exec m).regs reg = m.regs reg := by
  cases instr <;>
    simp only [Instr.sets, List.mem_cons, List.not_mem_nil, or_false, not_or] at other <;>
    first
      | rfl
      | exact if_neg other
      | exact (if_neg other.2).trans (if_neg other.1)

/-- A sequence of instructions keeps the bytes of a range that all of them spare. -/
theorem mem_run_spared {code : List Instr} (spares : ∀ instr ∈ code, instr.Spares limit low high)
    (fits : m.fsBase + limit < 2 ^ 64) {query : Nat} (above : m.fsBase + low ≤ query)
    (below : query < m.fsBase + high) : (run code m).mem query = m.mem query := by
  induction code generalizing m with
  | nil => rfl
  | cons instr rest inductionHypothesis =>
      have base := fsBase_exec instr m
      rw [run_cons, inductionHypothesis (fun later listed =>
        spares later (List.mem_cons_of_mem _ listed)) (by rw [base]; exact fits)
        (by rw [base]; exact above) (by rw [base]; exact below)]
      exact mem_exec_spared (spares instr List.mem_cons_self) fits above below

/-- So it keeps the words there. -/
theorem load_run_spared {code : List Instr} (spares : ∀ instr ∈ code, instr.Spares limit low high)
    (fits : m.fsBase + limit < 2 ^ 64) {offset width : Nat} (above : low ≤ offset)
    (below : offset + width ≤ high) :
    (run code m).mem.load (m.fsBase + offset) width =
      m.mem.load (m.fsBase + offset) width := by
  apply ByteMem.load_congr
  intro index inside
  exact mem_run_spared spares fits (by omega) (by omega)

/-- A sequence of instructions keeps the registers that none of them sets. -/
theorem regs_run_other {code : List Instr} {reg : Reg}
    (others : ∀ instr ∈ code, reg ∉ instr.sets) : (run code m).regs reg = m.regs reg := by
  induction code generalizing m with
  | nil => rfl
  | cons instr rest inductionHypothesis =>
      rw [run_cons, inductionHypothesis fun later listed =>
        others later (List.mem_cons_of_mem _ listed)]
      exact regs_exec_other (others instr List.mem_cons_self)

/-- A sequence of instructions of a range changes no byte outside of the range. -/
theorem mem_run_outside {code : List Instr} (within : ∀ instr ∈ code, instr.Within low high)
    (fits : m.fsBase + high < 2 ^ 64) {query : Nat}
    (outside : query < m.fsBase + low ∨ m.fsBase + high ≤ query) :
    (run code m).mem query = m.mem query := by
  induction code generalizing m with
  | nil => rfl
  | cons instr rest inductionHypothesis =>
      have base := fsBase_exec instr m
      rw [run_cons, inductionHypothesis (fun later listed =>
        within later (List.mem_cons_of_mem _ listed)) (by rw [base]; exact fits)
        (by rw [base]; exact outside)]
      exact mem_exec_outside (within instr List.mem_cons_self) fits outside

theorem segmentBase_run (code : List Instr) (m : Machine) :
    (run code m).segmentBase = m.segmentBase := by
  induction code generalizing m with
  | nil => rfl
  | cons instr rest inductionHypothesis =>
      rw [run_cons, inductionHypothesis, segmentBase_exec]

theorem fsBase_run (code : List Instr) (m : Machine) : (run code m).fsBase = m.fsBase := by
  rw [Machine.fsBase, segmentBase_run, Machine.fsBase]

end Exec

end X86
