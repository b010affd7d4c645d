import Mcfi.Lib.ByteMem
import Mcfi.Lib.Spans

/-!
# A fragment of x86-64

General registers, vector registers, control words and the zero flag over a byte
memory, and the instructions that move, compare and save them.  A write to the low
half of a general register clears the upper half.  The registers that an instruction
sequence saves and restores are cells, and a save area gives every cell an offset
from the base of `fs`.
-/

namespace X86

/-- The general registers. -/
inductive Reg where
  | rax | rbx | rcx | rdx | rdi | rsi | rbp | rsp
  | r8 | r9 | r10 | r11 | r12 | r13 | r14 | r15
  deriving DecidableEq, Repr

/-- The segment registers whose base need not be zero. -/
inductive SegmentReg where
  | fs
  | gs
  deriving DecidableEq, Repr

/-- The state of a processor, without the program counter. -/
structure Machine where
  regs : Reg → BitVec 64
  xmm : Fin 16 → BitVec 128
  mxcsr : BitVec 32
  fcw : BitVec 16
  segmentBase : SegmentReg → BitVec 64
  zf : Bool
  mem : ByteMem

/-- A memory operand. -/
structure MemOperand where
  base : Option Reg
  scale : BitVec 64
  index : Option Reg
  disp : BitVec 64
  segment : Option SegmentReg
  deriving DecidableEq

/-- The instructions of the fragment. -/
inductive Instr where
  | load64 (dst : Reg) (src : MemOperand)
  | load32 (dst : Reg) (src : MemOperand)
  | store64 (dst : MemOperand) (src : Reg)
  | storeImm8 (dst : MemOperand) (imm : BitVec 8)
  | mov64 (dst src : Reg)
  | mov32 (dst src : Reg)
  | movImm8 (dst : Reg) (imm : BitVec 8)
  | add64 (dst : Reg) (imm : BitVec 64)
  | sub32 (dst : Reg) (imm : BitVec 32)
  | subMem32 (dst : MemOperand) (imm : BitVec 32)
  | push (src : Reg)
  | pop (dst : Reg)
  | cmp64 (left right : Reg)
  | cmp32 (left right : Reg)
  | cmpImm8 (left : Reg) (imm : BitVec 8)
  | testImm8 (left : Reg) (imm : BitVec 8)
  | storeLow (dst : MemOperand) (src : Fin 16)
  | loadLow (dst : Fin 16) (src : MemOperand)
  | stmxcsr (dst : MemOperand)
  | ldmxcsr (src : MemOperand)
  | fnstcw (dst : MemOperand)
  | fldcw (src : MemOperand)
  deriving DecidableEq

namespace Machine

variable (m : Machine)

/-- Set a general register. -/
def setReg (reg : Reg) (value : BitVec 64) : Machine :=
  { m with regs := fun other => if other = reg then value else m.regs other }

/-- Set a vector register. -/
def setXmm (reg : Fin 16) (value : BitVec 128) : Machine :=
  { m with xmm := fun other => if other = reg then value else m.xmm other }

/-- The value of a register that an operand may name. -/
def regOr (reg : Option Reg) : BitVec 64 :=
  match reg with
  | some reg => m.regs reg
  | none => 0

/-- The address of a memory operand. -/
def addr (operand : MemOperand) : Nat :=
  ((match operand.segment with
    | some segment => m.segmentBase segment
    | none => 0) + m.regOr operand.base + m.regOr operand.index * operand.scale +
      operand.disp).toNat

/-- Write a number to memory. -/
def store (addr width value : Nat) : Machine :=
  { m with mem := m.mem.store addr width value }

/-- The low byte of a register. -/
def low8 (reg : Reg) : BitVec 8 :=
  (m.regs reg).truncate 8

end Machine

/-- The low 32 bits. -/
def truncated (value : BitVec 64) : BitVec 64 :=
  (value.truncate 32).zeroExtend 64

theorem truncated_lt (value : BitVec 64) : (truncated value).toNat < 2 ^ 32 := by
  simp only [truncated, BitVec.truncate_eq_setWidth, BitVec.zeroExtend, BitVec.toNat_setWidth]
  omega

/-- The low half of what a 64-bit load gives. -/
theorem load_truncated (mem : ByteMem) (addr : Nat) :
    BitVec.ofNat 64 (mem.load addr 4) = truncated (BitVec.ofNat 64 (mem.load addr 8)) := by
  have halves : mem.load addr 8 = mem.load addr 4 + 2 ^ 32 * mem.load (addr + 4) 4 :=
    ByteMem.load_add mem addr 4 4
  have low : mem.load addr 4 < 256 ^ 4 := ByteMem.load_lt _ _ _
  have whole : mem.load addr 8 < 256 ^ 8 := ByteMem.load_lt _ _ _
  refine BitVec.eq_of_toNat_eq ?_
  simp only [truncated, BitVec.truncate_eq_setWidth, BitVec.zeroExtend, BitVec.toNat_setWidth,
    BitVec.toNat_ofNat]
  omega

open Machine

/-- Execute an instruction. -/
def Instr.exec (instr : Instr) (m : Machine) : Machine :=
  match instr with
  | load64 dst src => m.setReg dst (BitVec.ofNat 64 (m.mem.load (m.addr src) 8))
  | load32 dst src => m.setReg dst (BitVec.ofNat 64 (m.mem.load (m.addr src) 4))
  | store64 dst src => m.store (m.addr dst) 8 (m.regs src).toNat
  | storeImm8 dst imm => m.store (m.addr dst) 1 imm.toNat
  | mov64 dst src => m.setReg dst (m.regs src)
  | mov32 dst src => m.setReg dst (((m.regs src).truncate 32).zeroExtend 64)
  | movImm8 dst imm => m.setReg dst (m.regs dst &&& ~~~ 255#64 ||| imm.zeroExtend 64)
  | add64 dst imm =>
      { m.setReg dst (m.regs dst + imm) with zf := m.regs dst + imm == 0 }
  | sub32 dst imm =>
      let result := (m.regs dst).truncate 32 - imm
      { m.setReg dst (result.zeroExtend 64) with zf := result == 0 }
  | subMem32 dst imm =>
      let result := BitVec.ofNat 32 (m.mem.load (m.addr dst) 4) - imm
      { m.store (m.addr dst) 4 result.toNat with zf := result == 0 }
  | push src =>
      let stack := m.regs .rsp - 8
      (m.store stack.toNat 8 (m.regs src).toNat).setReg .rsp stack
  | pop dst =>
      let value := BitVec.ofNat 64 (m.mem.load (m.regs .rsp).toNat 8)
      (m.setReg .rsp (m.regs .rsp + 8)).setReg dst value
  | cmp64 left right => { m with zf := m.regs left == m.regs right }
  | cmp32 left right =>
      { m with zf := (m.regs left).truncate 32 == (m.regs right).truncate 32 }
  | cmpImm8 left imm => { m with zf := m.low8 left == imm }
  | testImm8 left imm => { m with zf := m.low8 left &&& imm == 0 }
  | storeLow dst src => m.store (m.addr dst) 8 ((m.xmm src).toNat % 2 ^ 64)
  | loadLow dst src => m.setXmm dst (BitVec.ofNat 128 (m.mem.load (m.addr src) 8))
  | stmxcsr dst => m.store (m.addr dst) 4 m.mxcsr.toNat
  | ldmxcsr src => { m with mxcsr := BitVec.ofNat 32 (m.mem.load (m.addr src) 4) }
  | fnstcw dst => m.store (m.addr dst) 2 m.fcw.toNat
  | fldcw src => { m with fcw := BitVec.ofNat 16 (m.mem.load (m.addr src) 2) }

/-- Execute a sequence of instructions. -/
def run (code : List Instr) (m : Machine) : Machine :=
  code.foldl (fun m instr => instr.exec m) m

theorem run_cons (instr : Instr) (code : List Instr) (m : Machine) :
    run (instr :: code) m = run code (instr.exec m) :=
  List.foldl_cons ..

theorem run_append (code more : List Instr) (m : Machine) :
    run (code ++ more) m = run more (run code m) :=
  List.foldl_append

/-- One more instruction of a sequence. -/
theorem run_take_succ {code : List Instr} {index : Nat} {instr : Instr}
    (isInstr : code[index]? = some instr) (m : Machine) :
    run (code.take (index + 1)) m = instr.exec (run (code.take index) m) := by
  rw [List.take_add_one, isInstr, run_append]
  rfl

/-- What is saved and restored: a register or a control word. -/
inductive Cell where
  | reg (reg : Reg)
  | xmm (reg : Fin 16)
  | mxcsr
  | fcw
  deriving DecidableEq

namespace Cell

/-- What a cell holds. -/
def get (cell : Cell) (m : Machine) : Nat :=
  match cell with
  | reg name => (m.regs name).toNat
  | xmm name => (m.xmm name).toNat
  | mxcsr => m.mxcsr.toNat
  | fcw => m.fcw.toNat

/-- How many bytes of a cell are saved. -/
def width : Cell → Nat
  | reg _ => 8
  | xmm _ => 8
  | mxcsr => 4
  | fcw => 2

/-- Put a saved number into a cell. -/
def set (cell : Cell) (value : Nat) (m : Machine) : Machine :=
  match cell with
  | reg name => m.setReg name (BitVec.ofNat 64 value)
  | xmm name => m.setXmm name (BitVec.ofNat 128 value)
  | mxcsr => { m with mxcsr := BitVec.ofNat 32 value }
  | fcw => { m with fcw := BitVec.ofNat 16 value }

variable {cell other : Cell} {m : Machine} {value : Nat}

/-- A cell holds the number that was put into it. -/
theorem get_set (small : value < 256 ^ cell.width) : cell.get (cell.set value m) = value := by
  cases cell with
  | reg name =>
      have same : (m.setReg name (BitVec.ofNat 64 value)).regs name =
          BitVec.ofNat 64 value := if_pos rfl
      rw [get, set, same, BitVec.toNat_ofNat]
      exact Nat.mod_eq_of_lt small
  | xmm name =>
      have same : (m.setXmm name (BitVec.ofNat 128 value)).xmm name =
          BitVec.ofNat 128 value := if_pos rfl
      rw [get, set, same, BitVec.toNat_ofNat]
      exact Nat.mod_eq_of_lt (Nat.lt_of_lt_of_le small (show 256 ^ 8 ≤ 2 ^ 128 by decide))
  | mxcsr => exact Nat.mod_eq_of_lt small
  | fcw => exact Nat.mod_eq_of_lt small

/-- Setting a cell changes no other cell. -/
theorem get_set_of_ne (distinct : cell ≠ other) :
    cell.get (other.set value m) = cell.get m := by
  cases cell <;> cases other <;> first
    | rfl
    | exact absurd rfl distinct
    | exact congrArg BitVec.toNat (if_neg fun same => distinct (congrArg _ same))

@[simp] theorem mem_set : (cell.set value m).mem = m.mem := by
  cases cell <;> rfl

@[simp] theorem segmentBase_set : (cell.set value m).segmentBase = m.segmentBase := by
  cases cell <;> rfl

end Cell

/-- The memory at an offset from the base of `fs`. -/
def atFs (offset : Nat) : MemOperand :=
  ⟨none, 0, none, BitVec.ofNat 64 offset, some .fs⟩

theorem addr_atFs {m : Machine} {offset : Nat}
    (fits : (m.segmentBase .fs).toNat + offset < 2 ^ 64) :
    m.addr (atFs offset) = (m.segmentBase .fs).toNat + offset := by
  have small : offset < 2 ^ 64 := by omega
  have addrIs : m.addr (atFs offset) =
      (m.segmentBase .fs + BitVec.ofNat 64 offset).toNat := by
    simp [addr, atFs, regOr]
  rw [addrIs, BitVec.toNat_add, BitVec.toNat_ofNat, Nat.mod_eq_of_lt small]
  exact Nat.mod_eq_of_lt fits

/-- A cell and where it is saved. -/
structure Slot where
  cell : Cell
  offset : Nat
  deriving DecidableEq

namespace Slot

/-- The offset behind the saved bytes. -/
def stop (slot : Slot) : Nat :=
  slot.offset + slot.cell.width

/-- The instruction that saves a cell. -/
def save (slot : Slot) : Instr :=
  match slot.cell with
  | .reg name => .store64 (atFs slot.offset) name
  | .xmm name => .storeLow (atFs slot.offset) name
  | .mxcsr => .stmxcsr (atFs slot.offset)
  | .fcw => .fnstcw (atFs slot.offset)

/-- The instruction that restores a cell. -/
def restore (slot : Slot) : Instr :=
  match slot.cell with
  | .reg name => .load64 name (atFs slot.offset)
  | .xmm name => .loadLow name (atFs slot.offset)
  | .mxcsr => .ldmxcsr (atFs slot.offset)
  | .fcw => .fldcw (atFs slot.offset)

/-- The number that is saved. -/
def saved (slot : Slot) (m : Machine) : Nat :=
  slot.cell.get m % 256 ^ slot.cell.width

end Slot

section SaveArea

variable {m : Machine} {slots : List Slot}

theorem exec_save (slot : Slot) (m : Machine) :
    slot.save.exec m =
      m.store (m.addr (atFs slot.offset)) slot.cell.width (slot.saved m) := by
  obtain ⟨cell, offset⟩ := slot
  cases cell with
  | reg name =>
      have small : (m.regs name).toNat % 256 ^ 8 = (m.regs name).toNat :=
        Nat.mod_eq_of_lt (m.regs name).isLt
      simp only [Slot.save, Instr.exec, Slot.saved, Cell.get, Cell.width, small]
  | xmm name => rfl
  | mxcsr =>
      have small : m.mxcsr.toNat % 256 ^ 4 = m.mxcsr.toNat :=
        Nat.mod_eq_of_lt m.mxcsr.isLt
      simp only [Slot.save, Instr.exec, Slot.saved, Cell.get, Cell.width, small]
  | fcw =>
      have small : m.fcw.toNat % 256 ^ 2 = m.fcw.toNat := Nat.mod_eq_of_lt m.fcw.isLt
      simp only [Slot.save, Instr.exec, Slot.saved, Cell.get, Cell.width, small]

theorem exec_restore (slot : Slot) (m : Machine) :
    slot.restore.exec m =
      slot.cell.set (m.mem.load (m.addr (atFs slot.offset)) slot.cell.width) m := by
  obtain ⟨cell, offset⟩ := slot
  cases cell <;> rfl

/-- The slots of a save area have room in the address space, and none overlaps another. -/
structure SaveArea (m : Machine) (slots : List Slot) : Prop where
  fits : ∀ slot ∈ slots, (m.segmentBase .fs).toNat + slot.stop < 2 ^ 64
  apart : slots.Pairwise (Spans.Apart Slot.offset Slot.stop)

/-- The saved cells, in memory. -/
structure Saved (m : Machine) (slots : List Slot) (after : Machine) : Prop where
  onlyMem : after = { m with mem := after.mem }
  inSlots : ∀ slot ∈ slots, after.mem.load ((m.segmentBase .fs).toNat + slot.offset)
    slot.cell.width = slot.saved m
  others : ∀ query, (∀ slot ∈ slots, query < (m.segmentBase .fs).toNat + slot.offset ∨
    (m.segmentBase .fs).toNat + slot.stop ≤ query) → after.mem query = m.mem query

theorem Slot.saved_withMem (slot : Slot) (m : Machine) (mem : ByteMem) :
    slot.saved { m with mem := mem } = slot.saved m := by
  obtain ⟨cell, offset⟩ := slot
  cases cell <;> rfl

/-- A sequence of saves keeps every cell in its slot. -/
theorem run_saves (area : SaveArea m slots) :
    Saved m slots (run (slots.map Slot.save) m) := by
  induction slots generalizing m with
  | nil => exact ⟨rfl, (fun _ never => nomatch never), fun _ _ => rfl⟩
  | cons slot rest inductionHypothesis =>
      obtain ⟨apartFirst, apartRest⟩ := List.pairwise_cons.mp area.apart
      have fits := area.fits slot List.mem_cons_self
      have step : slot.save.exec m =
          m.store ((m.segmentBase .fs).toNat + slot.offset) slot.cell.width
            (slot.saved m) := by
        rw [exec_save, addr_atFs (by rw [Slot.stop] at fits; omega)]
      have small : slot.saved m < 256 ^ slot.cell.width :=
        Nat.mod_lt _ (Nat.pow_pos (by decide))
      have later := @inductionHypothesis (slot.save.exec m) (by
        rw [step]
        exact ⟨fun other listed => area.fits other (List.mem_cons_of_mem _ listed),
          apartRest⟩)
      rw [step] at later
      have ran : run ((slot :: rest).map Slot.save) m =
          run (rest.map Slot.save) (m.store ((m.segmentBase .fs).toNat + slot.offset)
            slot.cell.width (slot.saved m)) := by
        rw [← step]
        rfl
      rw [ran]
      refine ⟨?_, fun other listed => ?_, fun query outside => ?_⟩
      · rw [later.onlyMem]
        rfl
      · rcases List.mem_cons.mp listed with rfl | inRest
        · -- no later save touches the slot
          refine Eq.trans ?_ (ByteMem.load_store_same m.mem
            ((m.segmentBase .fs).toNat + other.offset) small)
          apply ByteMem.load_congr
          intro index below
          apply later.others
          intro next nextListed
          have apart := apartFirst next nextListed
          simp only [Spans.Apart, Slot.stop] at apart
          simp only [Slot.stop, Machine.store]
          omega
        · rw [← Slot.saved_withMem other m]
          exact later.inSlots other inRest
      · have first := outside slot List.mem_cons_self
        rw [later.others query fun other listed =>
          outside other (List.mem_cons_of_mem _ listed)]
        exact ByteMem.store_other _ (by rw [Slot.stop] at first; omega)

/-- A sequence of restores gives every cell what is in its slot. -/
theorem run_restores (fits : ∀ slot ∈ slots, (m.segmentBase .fs).toNat + slot.stop < 2 ^ 64)
    (distinct : (slots.map Slot.cell).Nodup) :
    (∀ slot ∈ slots, slot.cell.get (run (slots.map Slot.restore) m) =
      m.mem.load ((m.segmentBase .fs).toNat + slot.offset) slot.cell.width) ∧
    (∀ cell, cell ∉ slots.map Slot.cell →
      cell.get (run (slots.map Slot.restore) m) = cell.get m) ∧
    (run (slots.map Slot.restore) m).mem = m.mem ∧
    (run (slots.map Slot.restore) m).segmentBase = m.segmentBase := by
  induction slots generalizing m with
  | nil => exact ⟨(fun _ never => nomatch never), fun _ _ => rfl, rfl, rfl⟩
  | cons slot rest inductionHypothesis =>
      rw [List.map_cons, List.nodup_cons] at distinct
      have inside := fits slot List.mem_cons_self
      have step : slot.restore.exec m = slot.cell.set (m.mem.load
          ((m.segmentBase .fs).toNat + slot.offset) slot.cell.width) m := by
        rw [exec_restore, addr_atFs (by rw [Slot.stop] at inside; omega)]
      obtain ⟨restored, others, mem, segmentBase⟩ :=
        @inductionHypothesis (slot.restore.exec m) (by
          rw [step, Cell.segmentBase_set]
          exact fun other listed => fits other (List.mem_cons_of_mem _ listed))
          distinct.2
      have ran : run ((slot :: rest).map Slot.restore) m =
          run (rest.map Slot.restore) (slot.restore.exec m) := rfl
      rw [ran]
      refine ⟨fun other listed => ?_, fun cell absent => ?_, ?_, ?_⟩
      · rcases List.mem_cons.mp listed with rfl | inRest
        · rw [others _ distinct.1, step]
          exact Cell.get_set (ByteMem.load_lt _ _ _)
        · rw [restored other inRest, step, Cell.mem_set, Cell.segmentBase_set]
      · rw [List.map_cons, List.mem_cons, not_or] at absent
        rw [others cell absent.2, step]
        exact Cell.get_set_of_ne absent.1
      · rw [mem, step, Cell.mem_set]
      · rw [segmentBase, step, Cell.segmentBase_set]

end SaveArea

end X86
