import Mcfi.Lib.X86

namespace Mcfi

open X86

/-!
# Confinement of compiled code

`MCFIx64StackPointer` turns an instruction that defines `rsp` into the 32-bit
instruction of the same kind, or puts `movl %esp, %esp` behind it.  `EmitInstruction`
puts the address-size prefix in front of an instruction that stores, unless it counts
too few operands for a memory operand or finds `rip`, `fs` or `gs` among them.
-/

section Instructions

/-- A register as an operand names it; `none` is register 0. -/
inductive PhysReg where
  | none
  | gpr (reg : Reg)
  | rip
  | segment (reg : SegmentReg)
  | other (number : Nat)
  deriving DecidableEq

/-- An operand of a machine instruction; a symbol is its value. -/
inductive MOperand where
  | reg (reg : PhysReg)
  | imm (value : BitVec 64)
  deriving DecidableEq

/-- The operations that have a 64-bit and a 32-bit form. -/
inductive AluOp where
  | add
  | sub
  | and
  | or
  deriving DecidableEq, Repr

/-- The forms of an operation, by its last operand: `ri32`, `ri8`, `rm` and `rr`. -/
inductive AluForm where
  | ri32
  | ri8
  | rm
  | rr
  deriving DecidableEq, Repr

/-- The opcodes that the passes tell apart. -/
inductive Opcode where
  | alu64 (op : AluOp) (form : AluForm)
  | lea64r
  | mov64rr
  | mov64rm
  | push (number : Nat)
  | pop (number : Nat)
  | repString (number : Nat)
  | other (number : Nat)
  deriving DecidableEq, Repr

/-- The opcodes that define `esp`. -/
inductive Opcode32 where
  | alu32 (op : AluOp) (form : AluForm)
  | lea64_32r
  | mov32rr
  | mov32rm
  deriving DecidableEq, Repr

/-- The five operands of a memory reference. -/
structure MemRef where
  base : PhysReg
  scale : BitVec 64
  index : PhysReg
  disp : BitVec 64
  segment : PhysReg

/-- The memory reference whose first operand is at a position. -/
def memRefAt (operands : List MOperand) (start : Nat) : Option MemRef :=
  match operands.drop start with
  | .reg base :: .imm scale :: .reg index :: .imm disp :: .reg segment :: _ =>
      some ⟨base, scale, index, disp, segment⟩
  | _ => none

/-- Where an instruction stores: to a memory operand, or where a register points. -/
inductive StoreTarget where
  | operand (start : Nat)
  | implicit (reg : Reg)
  deriving DecidableEq

/--
A machine instruction, with what its description says about it.  `stores` leaves out
the stack stores of pushes and calls.  An IR instruction is attached to calls only.
-/
structure MachInst where
  opcode : Opcode
  operands : List MOperand
  isCall : Bool
  isReturn : Bool
  isBranch : Bool
  isInlineAsm : Bool
  mayStore : Bool
  hasIRInst : Bool
  definesRsp : Bool
  stores : List StoreTarget
  irInst : hasIRInst = true → isCall = true ∨ isReturn = true
  explicit : ∀ start, .operand start ∈ stores → (memRefAt operands start).isSome

end Instructions

section Passes

/-- `SafeStackPointerModification`: pushes and pops. -/
def safeStackPointerModification : Opcode → Bool
  | .push _ => true
  | .pop _ => true
  | _ => false

/-- `RspToEspDef`. -/
def rspToEspDef : Opcode → Option Opcode32
  | .alu64 op form => some (.alu32 op form)
  | .lea64r => some .lea64_32r
  | .mov64rr => some .mov32rr
  | .mov64rm => some .mov32rm
  | _ => none

/-- What `MCFIx64` makes of an instruction that defines `rsp`. -/
inductive StackPointerCode where
  | unchanged
  | replaced (opcode : Opcode32)
  | followed
  deriving DecidableEq, Repr

/-- `MCFIx64StackPointer`. -/
def mcfiX64StackPointer (opcode : Opcode) : StackPointerCode :=
  if safeStackPointerModification opcode then
    .unchanged
  else
    match rspToEspDef opcode with
    | some newOpcode => .replaced newOpcode
    | none => .followed

/-- `MCFIx64`, for an instruction that is no return and no direct tail call. -/
def MachInst.stackPointerCode (instr : MachInst) : StackPointerCode :=
  if instr.hasIRInst then
    .unchanged
  else if instr.definesRsp && !instr.isCall && !instr.isReturn then
    mcfiX64StackPointer instr.opcode
  else
    .unchanged

/-- `RepOp`. -/
def repOp : Opcode → Bool
  | .repString _ => true
  | _ => false

/-- An operand that makes `EmitInstruction` leave the prefix out. -/
def MOperand.removesCheck : MOperand → Bool
  | .reg .rip => true
  | .reg (.segment _) => true
  | _ => false

/-- `EmitInstruction` puts the address-size prefix in front of the instruction. -/
def MachInst.addressSizePrefix (instr : MachInst) : Bool :=
  instr.mayStore && !instr.isBranch && !instr.isInlineAsm &&
    (5 ≤ instr.operands.length || repOp instr.opcode) &&
    !instr.operands.any MOperand.removesCheck

end Passes

section Meaning

/-- The value of a register operand; `rip` is the address of the next instruction. -/
def PhysReg.value (reg : PhysReg) (m : Machine) (rip : BitVec 64) : BitVec 64 :=
  match reg with
  | .gpr name => m.regs name
  | .rip => rip
  | _ => 0

/-- The base of a segment operand. -/
def PhysReg.segmentBase (reg : PhysReg) (m : Machine) : BitVec 64 :=
  match reg with
  | .segment name => m.segmentBase name
  | _ => 0

namespace MemRef

variable (ref : MemRef) (m : Machine) (rip : BitVec 64)

/-- The effective address, which is an offset in the segment. -/
def offset : BitVec 64 :=
  ref.base.value m rip + ref.index.value m rip * ref.scale + ref.disp

/-- The address in memory. -/
def addr : BitVec 64 :=
  ref.segment.segmentBase m + ref.offset m rip

end MemRef

/-- An operation on words of a width. -/
def AluOp.apply {width : Nat} (op : AluOp) (left right : BitVec width) : BitVec width :=
  match op with
  | .add => left + right
  | .sub => left - right
  | .and => left &&& right
  | .or => left ||| right

section Values

variable (operands : List MOperand) (m : Machine) (rip : BitVec 64)

/-- A register operand. -/
def regOperand (position : Nat) : BitVec 64 :=
  match operands[position]? with
  | some (.reg reg) => reg.value m rip
  | _ => 0

/-- An immediate operand, sign-extended. -/
def immOperand (position : Nat) : BitVec 64 :=
  match operands[position]? with
  | some (.imm value) => value
  | _ => 0

/-- The bytes of a memory operand. -/
def memOperand (start bytes : Nat) : Nat :=
  match memRefAt operands start with
  | some ref => m.mem.load (ref.addr m rip).toNat bytes
  | none => 0

/-- The address that a `lea` computes. -/
def leaOperand (start : Nat) : BitVec 64 :=
  match memRefAt operands start with
  | some ref => ref.offset m rip
  | none => 0

/-- The last operand of an operation, 64 bits wide. -/
def AluForm.source64 (form : AluForm) : BitVec 64 :=
  match form with
  | .ri32 => immOperand operands 2
  | .ri8 => immOperand operands 2
  | .rm => BitVec.ofNat 64 (memOperand operands m rip 2 8)
  | .rr => regOperand operands m rip 2

/-- The last operand of an operation, 32 bits wide. -/
def AluForm.source32 (form : AluForm) : BitVec 32 :=
  match form with
  | .ri32 => (immOperand operands 2).truncate 32
  | .ri8 => (immOperand operands 2).truncate 32
  | .rm => BitVec.ofNat 32 (memOperand operands m rip 2 4)
  | .rr => (regOperand operands m rip 2).truncate 32

/--
What an instruction leaves in `rsp`.  Those outside the table of 32-bit opcodes leave
what `effect` says.
-/
def Opcode.rspAfter (effect : Machine → BitVec 64) (opcode : Opcode) : BitVec 64 :=
  match opcode with
  | .alu64 op form => op.apply (m.regs .rsp) (form.source64 operands m rip)
  | .lea64r => leaOperand operands m rip 1
  | .mov64rr => regOperand operands m rip 1
  | .mov64rm => BitVec.ofNat 64 (memOperand operands m rip 1 8)
  | _ => effect m

/-- What a 32-bit instruction leaves in `esp`. -/
def Opcode32.espAfter (opcode : Opcode32) : BitVec 32 :=
  match opcode with
  | .alu32 op form => op.apply ((m.regs .rsp).truncate 32) (form.source32 operands m rip)
  | .lea64_32r => (leaOperand operands m rip 1).truncate 32
  | .mov32rr => (regOperand operands m rip 1).truncate 32
  | .mov32rm => BitVec.ofNat 32 (memOperand operands m rip 1 4)

end Values

namespace MachInst

variable (instr : MachInst) (effect : Machine → BitVec 64) (m : Machine) (rip : BitVec 64)

/-- What the instruction leaves in `rsp`, when it is not changed. -/
def rspAfter : BitVec 64 :=
  instr.opcode.rspAfter instr.operands m rip effect

/-- What the code for the instruction leaves in `rsp`. -/
def confinedRsp : BitVec 64 :=
  match instr.stackPointerCode with
  | .unchanged => instr.rspAfter effect m rip
  | .replaced opcode => (opcode.espAfter instr.operands m rip).zeroExtend 64
  | .followed => truncated (instr.rspAfter effect m rip)

/-- An instruction after which the stack pointer has to be confined. -/
def setsStackPointer : Prop :=
  instr.definesRsp = true ∧ instr.isCall = false ∧ instr.isReturn = false ∧
    safeStackPointerModification instr.opcode = false

end MachInst

/-- `rip`, `fs` or `gs`, with a constant displacement and no other register. -/
def MemRef.Anchored (ref : MemRef) : Prop :=
  ref.index = .none ∧
    (ref.base = .rip ∧ ref.segment = .none ∨
      ref.base = .none ∧ ∃ reg, ref.segment = .segment reg)

/-- A store whose address is anchored. -/
def MachInst.AnchoredStore (instr : MachInst) (target : StoreTarget) : Prop :=
  ∃ start ref, target = .operand start ∧ memRefAt instr.operands start = some ref ∧
    ref.Anchored

/-- The code for an instruction is confined. -/
structure MachInst.Confined (instr : MachInst) : Prop where
  stackPointer : instr.setsStackPointer → ∀ effect m rip,
    (instr.confinedRsp effect m rip).toNat < 2 ^ 32 ∧
      instr.confinedRsp effect m rip = truncated (instr.rspAfter effect m rip)
  stores : ∀ target ∈ instr.stores,
    instr.addressSizePrefix = true ∨ instr.AnchoredStore target

/--
A store that the passes can see: it is anchored, or it is described as a store, has a
memory operand or is a repeated string instruction, and names none of `rip`, `fs` and
`gs`.
-/
def MachInst.Visible (instr : MachInst) (target : StoreTarget) : Prop :=
  instr.AnchoredStore target ∨
    instr.mayStore = true ∧ instr.isBranch = false ∧
      (∀ operand ∈ instr.operands, operand.removesCheck = false) ∧
      ∀ reg, target = .implicit reg →
        5 ≤ instr.operands.length ∨ repOp instr.opcode = true

end Meaning

section StackPointer

variable (operands : List MOperand) (m : Machine) (rip : BitVec 64)

/-- The low half of a result is the result on the low halves. -/
theorem AluOp.apply_truncate (op : AluOp) (left right : BitVec 64) :
    op.apply (left.truncate 32) (right.truncate 32) = (op.apply left right).truncate 32 := by
  cases op with
  | add => exact (BitVec.setWidth_add left right (by decide)).symm
  | sub =>
      refine BitVec.eq_of_toNat_eq ?_
      simp only [AluOp.apply, BitVec.truncate_eq_setWidth, BitVec.toNat_setWidth,
        BitVec.toNat_sub]
      omega
  | and => exact BitVec.setWidth_and.symm
  | or => exact BitVec.setWidth_or.symm

/-- The first bytes of a memory operand. -/
theorem memOperand_truncate (start : Nat) :
    BitVec.ofNat 32 (memOperand operands m rip start 4) =
      (BitVec.ofNat 64 (memOperand operands m rip start 8)).truncate 32 := by
  rw [memOperand, memOperand]
  cases memRefAt operands start with
  | none => rfl
  | some ref =>
      have halves : m.mem.load (ref.addr m rip).toNat 8 =
          m.mem.load (ref.addr m rip).toNat 4 +
            2 ^ 32 * m.mem.load ((ref.addr m rip).toNat + 4) 4 :=
        ByteMem.load_add m.mem (ref.addr m rip).toNat 4 4
      have low : m.mem.load (ref.addr m rip).toNat 4 < 2 ^ 32 := ByteMem.load_lt _ _ _
      have whole : m.mem.load (ref.addr m rip).toNat 8 < 2 ^ 64 := ByteMem.load_lt _ _ _
      refine BitVec.eq_of_toNat_eq ?_
      simp only [BitVec.truncate_eq_setWidth, BitVec.toNat_setWidth, BitVec.toNat_ofNat]
      omega

theorem AluForm.source32_eq (form : AluForm) :
    form.source32 operands m rip = (form.source64 operands m rip).truncate 32 := by
  cases form with
  | rm => exact memOperand_truncate operands m rip 2
  | _ => rfl

/-- The 32-bit instruction leaves the low half of what the 64-bit one leaves. -/
theorem espAfter_eq {opcode : Opcode} {newOpcode : Opcode32}
    (tabled : rspToEspDef opcode = some newOpcode) (effect : Machine → BitVec 64) :
    newOpcode.espAfter operands m rip =
      (opcode.rspAfter operands m rip effect).truncate 32 := by
  cases opcode with
  | alu64 op form =>
      obtain rfl := Option.some.inj tabled
      rw [Opcode32.espAfter, AluForm.source32_eq]
      exact op.apply_truncate _ _
  | lea64r =>
      obtain rfl := Option.some.inj tabled
      rfl
  | mov64rr =>
      obtain rfl := Option.some.inj tabled
      rfl
  | mov64rm =>
      obtain rfl := Option.some.inj tabled
      exact memOperand_truncate operands m rip 1
  | _ => exact nomatch tabled

/-- The stack pointer is confined behind every instruction that sets it. -/
theorem MachInst.confinedRsp_eq {instr : MachInst} (sets : instr.setsStackPointer)
    (effect : Machine → BitVec 64) (m : Machine) (rip : BitVec 64) :
    instr.confinedRsp effect m rip = truncated (instr.rspAfter effect m rip) := by
  obtain ⟨defines, notCall, notReturn, unsafeOpcode⟩ := sets
  have noIRInst : instr.hasIRInst = false := by
    cases attached : instr.hasIRInst with
    | false => rfl
    | true => rcases instr.irInst attached with call | returns <;> simp_all
  have code : instr.stackPointerCode = mcfiX64StackPointer instr.opcode := by
    simp [stackPointerCode, noIRInst, defines, notCall, notReturn]
  rw [confinedRsp, code, mcfiX64StackPointer, unsafeOpcode]
  cases tabled : rspToEspDef instr.opcode with
  | none => rfl
  | some newOpcode =>
      simp only [Bool.false_eq_true, if_false]
      rw [espAfter_eq instr.operands m rip tabled effect]
      rfl

end StackPointer

section Stores

variable {instr : MachInst} {target : StoreTarget}

theorem MachInst.addressSizePrefix_iff : instr.addressSizePrefix = true ↔
    instr.mayStore = true ∧ instr.isBranch = false ∧ instr.isInlineAsm = false ∧
      (5 ≤ instr.operands.length ∨ repOp instr.opcode = true) ∧
        ∀ operand ∈ instr.operands, operand.removesCheck = false := by
  simp only [addressSizePrefix, Bool.and_eq_true, Bool.not_eq_true', Bool.or_eq_true,
    decide_eq_true_eq, List.any_eq_false, Bool.not_eq_true, and_assoc]

/-- An instruction with a memory operand has five operands at least. -/
theorem five_le_of_memRefAt {operands : List MOperand} {start : Nat} {ref : MemRef}
    (found : memRefAt operands start = some ref) : 5 ≤ operands.length := by
  rw [memRefAt] at found
  split at found
  · rename_i shape
    have lengths := congrArg List.length shape
    simp only [List.length_drop, List.length_cons] at lengths
    omega
  · exact nomatch found

/-- A store gets the prefix or is anchored exactly when the passes can see it. -/
theorem MachInst.store_iff (noAsm : instr.isInlineAsm = false)
    (listed : target ∈ instr.stores) :
    instr.addressSizePrefix = true ∨ instr.AnchoredStore target ↔ instr.Visible target := by
  rw [addressSizePrefix_iff]
  constructor
  · rintro (⟨isStore, notBranch, -, counted, unnamed⟩ | anchored)
    · exact .inr ⟨isStore, notBranch, unnamed, fun _ _ => counted⟩
    · exact .inl anchored
  · rintro (anchored | ⟨isStore, notBranch, unnamed, counted⟩)
    · exact .inr anchored
    · refine .inl ⟨isStore, notBranch, noAsm, ?_, unnamed⟩
      cases target with
      | implicit reg => exact counted reg rfl
      | operand start =>
          obtain ⟨ref, found⟩ := Option.isSome_iff_exists.mp (instr.explicit start listed)
          exact .inl (five_le_of_memRefAt found)

/-- The code of a function is confined if and only if the passes can see its stores. -/
theorem confined_iff {code : List MachInst}
    (noAsm : ∀ instr ∈ code, instr.isInlineAsm = false) :
    (∀ instr ∈ code, instr.Confined) ↔
      ∀ instr ∈ code, ∀ target ∈ instr.stores, instr.Visible target := by
  constructor
  · intro confined instr listed target isStore
    exact (MachInst.store_iff (noAsm instr listed) isStore).mp
      ((confined instr listed).stores target isStore)
  · intro visible instr listed
    refine ⟨fun sets effect m rip => ?_, fun target isStore => ?_⟩
    · rw [MachInst.confinedRsp_eq sets effect m rip]
      exact ⟨truncated_lt _, rfl⟩
    · exact (MachInst.store_iff (noAsm instr listed) isStore).mpr
        (visible instr listed target isStore)

/-- `movq %rax, 8(%rbx)`. -/
def plainStore : MachInst where
  opcode := .other 0
  operands := [.reg (.gpr .rbx), .imm 1, .reg .none, .imm 8, .reg .none, .reg (.gpr .rax)]
  isCall := false
  isReturn := false
  isBranch := false
  isInlineAsm := false
  mayStore := true
  hasIRInst := false
  definesRsp := false
  stores := [.operand 0]
  irInst := fun never => nomatch never
  explicit := by
    intro start listed
    obtain rfl := StoreTarget.operand.inj (List.mem_singleton.mp listed)
    rfl

theorem plainStore_confined : plainStore.Confined := by
  have confined : ∀ instr ∈ [plainStore], instr.Confined := by
    refine (confined_iff (by decide)).mpr fun instr listed target isStore => ?_
    obtain rfl := List.mem_singleton.mp listed
    obtain rfl := List.mem_singleton.mp isStore
    exact .inr ⟨rfl, rfl, by decide, fun _ never => nomatch never⟩
  exact confined plainStore List.mem_cons_self

/-- `movl %eax, %fs:x@tpoff(,%rdi,4)`: a store to a thread-local array. -/
def threadLocalStore : MachInst where
  opcode := .other 0
  operands := [.reg .none, .imm 4, .reg (.gpr .rdi), .imm (-64), .reg (.segment .fs),
    .reg (.gpr .rax)]
  isCall := false
  isReturn := false
  isBranch := false
  isInlineAsm := false
  mayStore := true
  hasIRInst := false
  definesRsp := false
  stores := [.operand 0]
  irInst := fun never => nomatch never
  explicit := by
    intro start listed
    obtain rfl := StoreTarget.operand.inj (List.mem_singleton.mp listed)
    rfl

/-- The index register of a thread-local store is not confined. -/
theorem threadLocalStore_not_confined :
    ¬ ∀ code : List MachInst, (∀ instr ∈ code, instr.isInlineAsm = false) →
      ∀ instr ∈ code, instr.Confined := by
  intro always
  have confined := always [threadLocalStore] (by decide) threadLocalStore List.mem_cons_self
  rcases confined.stores (.operand 0) List.mem_cons_self with prefixed | anchored
  · exact absurd prefixed (by decide)
  · obtain ⟨start, ref, isStart, found, anchor, -⟩ := anchored
    obtain rfl := StoreTarget.operand.inj isStart
    obtain rfl := Option.some.inj found
    exact nomatch anchor

end Stores

end Mcfi
