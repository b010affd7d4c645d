import Mathlib.Algebra.BigOperators.Group.List.Basic
import Mcfi.IndirectCalls

namespace Mcfi

open X86

/-!
# The pass over the branches of a function

`MCFIx64` goes over the blocks of a machine function while it inserts blocks behind the
block it is at, and at the end of the function.  In front of a return and of an indirect
branch that an IR instruction is attached to, it puts the check that `MCFIx64MBBs`
builds.  `EmitInstruction` stops at some of the branches that are left.
-/

section Functions

/-- The calls through a register or through memory. -/
inductive CallOpcode where
  | call64r (target : Reg)
  | call64m (target : MemOperand)
  | call32r (target : Reg)
  | call32m (target : MemOperand)
  | call16r (target : Reg)
  | call16m (target : MemOperand)
  | farCall64 (target : MemOperand)
  | farCall32m (target : MemOperand)
  | farCall16m (target : MemOperand)
  | patchpoint (callTarget : Int) (scratch : Reg)

/--
The returns, the jumps and the tail calls through a register or through memory.  A jump
through memory may name a jump table, with an operand `isJTI`.
-/
inductive ExitOpcode where
  | retq
  | retl
  | retw
  | retiq (amount : Nat)
  | retil (amount : Nat)
  | retiw (amount : Nat)
  | lretq
  | lretl
  | lretw
  | lretiq (amount : Nat)
  | lretil (amount : Nat)
  | lretiw (amount : Nat)
  | ehReturn (addr : Reg)
  | ehReturn64 (addr : Reg)
  | morestackRet
  | morestackRetRestoreR10
  | jmp64r (target : Reg)
  | jmp64m (target : MemOperand) (jti : Bool)
  | jmp32r (target : Reg)
  | jmp32m (target : MemOperand) (jti : Bool)
  | jmp16r (target : Reg)
  | jmp16m (target : MemOperand)
  | farJmp64 (target : MemOperand)
  | farJmp32m (target : MemOperand)
  | farJmp16m (target : MemOperand)
  | tailJmpR64 (target : Reg)
  | tailJmpM64 (target : MemOperand)
  | tailJmpR (target : Reg)
  | tailJmpM (target : MemOperand)

/-- The IR instruction that is attached to a machine instruction. -/
inductive IRInst where
  | call
  | invoke
  | other
  deriving DecidableEq, Repr

/-- A call, with its register operands besides the target and what it changes. -/
structure CallInstr where
  opcode : CallOpcode
  uses : List RegUse
  defs : List Reg
  clobbers : List Reg
  irInst : Option IRInst

/-- A call, with its callee, by the registers that they name. -/
def CallInstr.named (call : CallInstr) : MachineInstr :=
  .other 0 (call.uses.map RegUse.reg) call.defs call.clobbers

/-- A return, a jump or a tail call. -/
structure ExitInstr where
  opcode : ExitOpcode
  uses : List RegUse
  irInst : Option IRInst
  tableJump : Bool

/-- The instructions of a block in front of its terminators. -/
inductive BodyInstr where
  | plain (instr : MachineInstr)
  | call (call : CallInstr)

/--
The end of a block.  Control stops behind a direct jump, a direct tail call and a call
that does not return.
-/
inductive BlockExit where
  | fallThrough
  | stop
  | branch (exit : ExitInstr)

/-- A block, with the blocks that its direct jumps name and its successors. -/
structure FunctionBlock where
  body : List BodyInstr
  jumps : List Nat
  exit : BlockExit
  succs : List Nat

/--
A machine function.  The first block has no predecessors, a jump goes to a successor,
and control that runs over the end of a block finds a successor there.
-/
structure MachineFunction where
  blocks : List FunctionBlock
  signalHandler : Bool
  entry : ∀ block ∈ blocks, 0 ∉ block.succs
  jumps : ∀ block ∈ blocks, ∀ target ∈ block.jumps, target ∈ block.succs
  falls : ∀ index block, blocks[index]? = some block → block.exit = .fallThrough →
    index + 1 < blocks.length ∧ index + 1 ∈ block.succs

end Functions

section Blocks

/-- An instruction of the function, by its block and its index there. -/
structure Place where
  block : Nat
  index : Nat
  deriving DecidableEq, Repr

/-- The place some instructions later. -/
def Place.advance (place : Place) (count : Nat) : Place :=
  ⟨place.block, place.index + count⟩

/-- The blocks of a check. -/
inductive CheckBlock where
  | idCmp
  | icj
  | interopCheck
  | idValidityCheck
  | verCheck
  | report
  deriving DecidableEq, Repr

/--
A label: a block of the function, or the rest of one behind a call, from its first
instruction; or a block of the check in front of a branch.
-/
inductive Label where
  | part (start : Place)
  | check (branch : Place) (block : CheckBlock)
  deriving DecidableEq, Repr

/--
An instruction behind the pass: one of the function, one of a check, or a branch behind
a check.  The branch and the instruction that reads its ID have a Bary slot.
-/
inductive PassInst where
  | plain (instr : MachineInstr)
  | call (call : CallInstr)
  | jump (block : Nat)
  | check (instr : Instr)
  | baryRead (instr : Instr) (barySlot : BitVec 64)
  | jcc (onZero : Bool) (target : Label)
  | checkedCall (call : CallInstr) (target : Reg) (barySlot : BitVec 64)
  | checkedExit (opcode : ExitOpcode) (barySlot : BitVec 64)
  | sigreturn
  | report (isReturn : Bool)

/-- The Bary slot of a branch behind a check. -/
def PassInst.branchSlot : PassInst → Option (BitVec 64)
  | checkedCall _ _ barySlot => some barySlot
  | checkedExit _ barySlot => some barySlot
  | _ => none

/-- The Bary slot that an instruction reads. -/
def PassInst.readSlot : PassInst → Option (BitVec 64)
  | baryRead _ barySlot => some barySlot
  | _ => none

/-- An instruction is a call of the function, without a check. -/
def PassInst.isCall : PassInst → Bool
  | call _ => true
  | _ => false

/-- A block behind the pass; `falls` when control may run over its end. -/
structure MachineBasicBlock where
  label : Label
  code : List PassInst
  exit : Option ExitInstr
  falls : Bool
  succs : List Label

namespace MachineBasicBlock

variable (mbb : MachineBasicBlock)

/-- The place of an instruction; those of a check are where their branch is. -/
def place (index : Nat) : Place :=
  match mbb.label with
  | .part start => start.advance index
  | .check branch _ => branch

/-- How many branches of the function are in a block. -/
def branches : Nat :=
  mbb.code.countP PassInst.isCall + if mbb.exit.isSome then 1 else 0

end MachineBasicBlock

/-- How many branches of the function are in some blocks. -/
def branchesIn (mbbs : List MachineBasicBlock) : Nat :=
  (mbbs.map MachineBasicBlock.branches).sum

/-- An instruction in front of the terminators, in a block behind the pass. -/
def BodyInstr.inst : BodyInstr → PassInst
  | plain instr => .plain instr
  | call instr => .call instr

namespace FunctionBlock

variable (block : FunctionBlock)

/-- The instructions of a block but a branch at its end. -/
def insts : List PassInst :=
  block.body.map BodyInstr.inst ++ block.jumps.map .jump

/-- The branch at the end. -/
def exitInstr : Option ExitInstr :=
  match block.exit with
  | .branch exit => some exit
  | _ => none

/-- Control may run over the end. -/
def falls : Bool :=
  match block.exit with
  | .fallThrough => true
  | _ => false

/-- The labels of the successors. -/
def labels : List Label :=
  block.succs.map fun index => .part ⟨index, 0⟩

/-- What is left of a block from one of its instructions on. -/
def rest (start : Place) : MachineBasicBlock where
  label := .part start
  code := block.insts.drop start.index
  exit := block.exitInstr
  falls := block.falls
  succs := block.labels

end FunctionBlock

/-- The blocks in front of the pass. -/
def MachineFunction.mbbs (f : MachineFunction) : List MachineBasicBlock :=
  f.blocks.mapIdx fun index block => block.rest ⟨index, 0⟩

/-- The instruction at a place. -/
def MachineFunction.inst? (f : MachineFunction) (place : Place) : Option PassInst :=
  f.blocks[place.block]?.bind fun block => block.insts[place.index]?

end Blocks

section Checks

variable (branch : Place) (regs : CheckRegs)

/-- `ModuleID + BarySlot`. -/
def slotNumber (moduleID : BitVec 64) (barySlot : BitVec 32) : BitVec 64 :=
  moduleID + barySlot.zeroExtend 64

/-- `MCFIx64IDCmp`. -/
def mcfiX64IDCmp (moduleID : BitVec 64) (barySlot : BitVec 32) : MachineBasicBlock where
  label := .check branch .idCmp
  code := [.baryRead (regs.baryRead barySlot.toNat) (slotNumber moduleID barySlot),
    .check regs.taryRead,
    .check (.cmp64 regs.bid regs.tid), .jcc false (.check branch .interopCheck)]
  exit := none
  falls := true
  succs := [.check branch .icj, .check branch .interopCheck]

/-- `MCFIx64ICJ`, with the reloads of what was spilled. -/
def mcfiX64ICJ (cj : PassInst) (falls : Bool) (succs : List Label) : MachineBasicBlock where
  label := .check branch .icj
  code := regs.pops.map .check ++ [cj]
  exit := none
  falls := falls
  succs := succs

/-- `MCFIx64InteropCheck`. -/
def mcfiX64InteropCheck : MachineBasicBlock where
  label := .check branch .interopCheck
  code := [.check regs.interopCheck, .jcc true (.check branch .icj)]
  exit := none
  falls := true
  succs := [.check branch .icj, .check branch .idValidityCheck]

/-- `MCFIx64IDValidityCheck`. -/
def mcfiX64IDValidityCheck : MachineBasicBlock where
  label := .check branch .idValidityCheck
  code := [.check regs.idValidityCheck, .jcc true (.check branch .report)]
  exit := none
  falls := true
  succs := [.check branch .verCheck, .check branch .report]

/-- `MCFIx64IDVersionCheck`. -/
def mcfiX64IDVersionCheck : MachineBasicBlock where
  label := .check branch .verCheck
  code := [.check regs.idVersionCheck, .jcc false (.check branch .idCmp)]
  exit := none
  falls := true
  succs := [.check branch .idCmp, .check branch .report]

/-- `MCFIx64Report`; the address of the check and the tail call are `report`. -/
def mcfiX64Report (isReturn : Bool) : MachineBasicBlock where
  label := .check branch .report
  code := (if !isReturn && regs.target ≠ .rsi then [.check (.mov64 .rsi regs.target)] else []) ++
    [.report isReturn]
  exit := none
  falls := false
  succs := []

/-- The blocks at the end of the function. -/
def tailBlocks (isReturn : Bool) : List MachineBasicBlock :=
  [mcfiX64InteropCheck branch regs, mcfiX64IDValidityCheck branch regs,
    mcfiX64IDVersionCheck branch regs, mcfiX64Report branch regs isReturn]

end Checks

section Pass

/-- The target of a call that the pass replaces, when an IR instruction is attached. -/
def CallOpcode.branchTarget : CallOpcode → Option BranchTarget
  | call64r target => some (.reg target)
  | call64m target => some (.mem target)
  | _ => none

/-- The target of a jump or a tail call that the pass replaces. -/
def ExitOpcode.branchTarget : ExitOpcode → Option BranchTarget
  | jmp64r target => some (.reg target)
  | jmp64m target _ => some (.mem target)
  | tailJmpR64 target => some (.reg target)
  | tailJmpM64 target => some (.mem target)
  | _ => none

/-- `CJOp` of a jump or a tail call. -/
def ExitOpcode.cjOp (opcode : ExitOpcode) (target : Reg) : ExitOpcode :=
  match opcode with
  | jmp64r _ => .jmp64r target
  | jmp64m _ _ => .jmp64r target
  | _ => .tailJmpR64 target

/-- The branch becomes a `TAILJMPr64`. -/
def ExitOpcode.isTailCall : ExitOpcode → Bool
  | jmp64r _ => false
  | jmp64m _ _ => false
  | _ => true

/-- The registers that an instruction of a check defines. -/
def checkDefs : Instr → List Reg
  | .pop dst => [dst, .rsp]
  | .push _ => [.rsp]
  | .load64 dst _ => [dst]
  | _ => []

/--
An instruction as the search for a definition sees it.  A load that has become 32 bits
wide defines a half of its register only.
-/
def PassInst.seen (narrowed : Bool) : PassInst → MachineInstr
  | plain (.mov64rm dst src) =>
      if narrowed then .other 0 (src.base.toList ++ src.index.toList) [] [dst]
      else .mov64rm dst src
  | plain instr => instr
  | call instr => instr.named
  | check instr => .other 0 [] (checkDefs instr) []
  | _ => .other 0 [] [] []

/-- The code of a block as the search for a definition sees it. -/
def MachineBasicBlock.seen (mbb : MachineBasicBlock) (loads32 : List Place) :
    List MachineInstr :=
  mbb.code.mapIdx fun index inst => inst.seen (decide (mbb.place index ∈ loads32))

/-- The only predecessor of a block: `pred_size() == 1`. -/
def singlePred (mbbs : List MachineBasicBlock) (label : Label) : Option MachineBasicBlock :=
  match mbbs.flatMap fun mbb => (mbb.succs.filter (· = label)).map fun _ => mbb with
  | [pred] => some pred
  | _ => none

/-- A call that the pass replaces. -/
def PassInst.replacedCall : PassInst → Option (CallInstr × IRInst × BranchTarget)
  | .call instr =>
      match instr.irInst, instr.opcode.branchTarget with
      | some irInst, some target => some (instr, irInst, target)
      | _, _ => none
  | _ => none

/-- The first call that is replaced, between the code in front of it and behind it. -/
def nextCall :
    List PassInst → Option (List PassInst × CallInstr × IRInst × BranchTarget × List PassInst)
  | [] => none
  | inst :: rest =>
      match inst.replacedCall with
      | some (instr, irInst, target) => some ([], instr, irInst, target, rest)
      | none => (nextCall rest).map fun (front, found) => (inst :: front, found)

namespace MachineBasicBlock

variable (mbb : MachineBasicBlock) (next : Option MachineBasicBlock)

/-- The successors of a block, when the block that begins behind a branch is split off. -/
def succsBehind : List Label :=
  match next with
  | some next => [next.label]
  | none => mbb.succs

/-- Control may run over the end, when the block that begins behind is split off. -/
def fallsBehind : Bool :=
  match next with
  | some _ => true
  | none => mbb.falls

end MachineBasicBlock

/--
The pass between two blocks: the blocks before and behind, the loads that have become
32 bits wide, the next Bary slot of the module and what was recorded of the module.
-/
structure PassState where
  visited : List MachineBasicBlock
  pending : List MachineBasicBlock
  loads32 : List Place
  barySlot : BitVec 32
  returns : List (BitVec 64)
  indirectCalls : List (BitVec 64)
  indirectTailCalls : List (BitVec 64)

/-- The registers of the check in front of a return. -/
def retRegs : CheckRegs :=
  ⟨.rcx, .rdi, .rsi, false, false⟩

namespace PassState

variable (moduleID : BitVec 64) (state : PassState)

/-- Go on to the next block. -/
def skip (mbb : MachineBasicBlock) (rest : List MachineBasicBlock) : PassState :=
  { state with
    visited := state.visited ++ [mbb]
    pending := rest }

/--
Replace the branch behind `front` by a check: `MCFIx64MBBs` with what comes in front of
it.  The branch passes its successors on, to the block that was split off or to its own.
-/
def insertCheck (mbb : MachineBasicBlock) (front : List PassInst)
    (next : Option MachineBasicBlock) (rest : List MachineBasicBlock) (branch : Place)
    (regs : CheckRegs) (truncation : List Instr) (cj : PassInst) (isReturn : Bool) : PassState :=
  { state with
    visited := state.visited ++ [{
      label := mbb.label
      code := front ++ (truncation ++ regs.pushes).map .check
      exit := none
      falls := true
      succs := [.check branch .idCmp] }]
    pending := mcfiX64IDCmp branch regs moduleID state.barySlot ::
      mcfiX64ICJ branch regs cj (mbb.fallsBehind next) (mbb.succsBehind next) ::
      (next.toList ++ rest ++ tailBlocks branch regs isReturn)
    barySlot := state.barySlot + 1 }

/-- A block that is left as it is, with a branch at its end replaced by `sigreturn`. -/
def mcfiX64Sigreturn (mbb : MachineBasicBlock) (rest : List MachineBasicBlock) : PassState :=
  state.skip { mbb with
    code := mbb.code ++ [.check (.pop .rcx), .sigreturn]
    exit := none } rest

/-- `MCFIx64Ret`, in a function that is not a signal handler. -/
def mcfiX64Ret (mbb : MachineBasicBlock) (rest : List MachineBasicBlock) (branch : Place) :
    PassState :=
  { state.insertCheck moduleID mbb mbb.code none rest branch retRegs [.pop .rcx, .mov32 .rcx .rcx]
      (.checkedExit (.jmp64r .rcx) (slotNumber moduleID state.barySlot)) true with
    returns := state.returns ++ [slotNumber moduleID state.barySlot] }

/-- The branch behind `front` and its predecessor, as `MCFIx64IndirectCall` sees them. -/
def branchSite (mbb : MachineBasicBlock) (front : List PassInst)
    (next : Option MachineBasicBlock) (rest : List MachineBasicBlock)
    (target : BranchTarget) (uses : List RegUse) :
    BranchSite × Option MachineBasicBlock :=
  let mbb := { mbb with
    code := mbb.code.take (front.length + 1)
    succs := mbb.succsBehind next }
  let pred := singlePred (state.visited ++ mbb :: (next.toList ++ rest)) mbb.label
  ({ target, uses
     block := (mbb.seen state.loads32).take front.length
     pred := pred.map fun pred => ⟨pred.seen state.loads32, []⟩
     barySlot := state.barySlot.toNat }, pred)

/-- The load that becomes 32 bits wide, in the block or in its predecessor. -/
def narrowedLoad (mbb : MachineBasicBlock) (site : BranchSite × Option MachineBasicBlock) :
    Option Place :=
  match site.1.targetLoad with
  | none => none
  | some (before, _, _) =>
      if before.length < site.1.predCode.length then
        site.2.map fun pred => pred.place before.length
      else
        some (mbb.place (before.length - site.1.predCode.length))

/-- `MCFIx64IndirectCall`; it stops at an IR instruction that is no call. -/
def mcfiX64IndirectCall (mbb : MachineBasicBlock) (front : List PassInst)
    (next : Option MachineBasicBlock) (rest : List MachineBasicBlock) (branch : Place)
    (target : BranchTarget) (uses : List RegUse) (irInst : IRInst)
    (cj : Reg → BitVec 64 → PassInst) (tailCall : Bool) : Option PassState :=
  let site := state.branchSite mbb front next rest target uses
  let slot := slotNumber moduleID state.barySlot
  match irInst with
  | .other => none
  | _ => some {
      state.insertCheck moduleID mbb front next rest branch site.1.checkRegs site.1.truncation
        (cj site.1.checkRegs.target slot) false with
      loads32 := (narrowedLoad mbb site).toList ++ state.loads32
      indirectCalls := state.indirectCalls ++ [slot]
      indirectTailCalls := state.indirectTailCalls ++ if tailCall then [slot] else [] }

/--
Go over a block.  A call that is not the last instruction splits the block, and what is
behind it is a block of its own.
-/
def visit (signalHandler : Bool) (mbb : MachineBasicBlock) (rest : List MachineBasicBlock) :
    Option PassState :=
  match nextCall mbb.code with
  | some (front, instr, irInst, target, behind) =>
      let branch := mbb.place front.length
      let next :=
        if behind.isEmpty && mbb.exit.isNone then none
        else some { mbb with
          label := .part (branch.advance 1)
          code := behind }
      state.mcfiX64IndirectCall moduleID mbb front next rest branch target instr.uses irInst
        (.checkedCall instr) false
  | none =>
      let branch := mbb.place mbb.code.length
      match mbb.exit with
      | none => some (state.skip mbb rest)
      | some exit =>
          match exit.opcode, exit.irInst, exit.opcode.branchTarget with
          | .retq, _, _ =>
              if signalHandler then some (state.mcfiX64Sigreturn mbb rest)
              else some (state.mcfiX64Ret moduleID mbb rest branch)
          | opcode, some irInst, some target =>
              state.mcfiX64IndirectCall moduleID mbb mbb.code none rest branch target
                exit.uses irInst (fun reg => .checkedExit (opcode.cjOp reg)) opcode.isTailCall
          | _, _, _ => some (state.skip mbb rest)

end PassState

/--
A branch in a block, between the code in front of it and the block that begins behind it,
with the instruction that becomes of it.
-/
inductive Replaces (mbb : MachineBasicBlock) : List PassInst → Option MachineBasicBlock →
    BranchTarget → List RegUse → (Reg → BitVec 64 → PassInst) → Prop where
  | lastCall {front : List PassInst} {instr : CallInstr} {target : BranchTarget}
      (code : mbb.code = front ++ [.call instr]) (noExit : mbb.exit = none)
      (attached : instr.irInst.isSome = true)
      (isTarget : instr.opcode.branchTarget = some target) :
      Replaces mbb front none target instr.uses (.checkedCall instr)
  | call {front behind : List PassInst} {instr : CallInstr} {target : BranchTarget}
      (code : mbb.code = front ++ .call instr :: behind)
      (attached : instr.irInst.isSome = true)
      (isTarget : instr.opcode.branchTarget = some target) :
      Replaces mbb front
        (some { mbb with
          label := .part ((mbb.place front.length).advance 1)
          code := behind })
        target instr.uses (.checkedCall instr)
  | exit {exit : ExitInstr} {target : BranchTarget} (isExit : mbb.exit = some exit)
      (attached : exit.irInst.isSome = true)
      (isTarget : exit.opcode.branchTarget = some target) :
      Replaces mbb mbb.code none target exit.uses fun reg => .checkedExit (exit.opcode.cjOp reg)

/-- What the pass can do at a block. -/
inductive Visits (moduleID : BitVec 64) (state : PassState) (mbb : MachineBasicBlock)
    (rest : List MachineBasicBlock) : PassState → Prop where
  | skip : Visits moduleID state mbb rest (state.skip mbb rest)
  | sigreturn {exit : ExitInstr} (isExit : mbb.exit = some exit)
      (isRet : exit.opcode = .retq) :
      Visits moduleID state mbb rest (state.mcfiX64Sigreturn mbb rest)
  | ret {exit : ExitInstr} (isExit : mbb.exit = some exit) (isRet : exit.opcode = .retq) :
      Visits moduleID state mbb rest
        (state.mcfiX64Ret moduleID mbb rest (mbb.place mbb.code.length))
  | branch {front : List PassInst} {next : Option MachineBasicBlock} {target : BranchTarget}
      {uses : List RegUse} {cj : Reg → BitVec 64 → PassInst} {irInst : IRInst} {tailCall : Bool}
      {after : PassState} (replaces : Replaces mbb front next target uses cj)
      (made : state.mcfiX64IndirectCall moduleID mbb front next rest
        (mbb.place front.length) target uses irInst cj tailCall = some after) :
      Visits moduleID state mbb rest after

theorem PassInst.replacedCall_spec {inst : PassInst} {instr : CallInstr} {irInst : IRInst}
    {target : BranchTarget} (replaced : inst.replacedCall = some (instr, irInst, target)) :
    inst = .call instr ∧ instr.irInst.isSome = true ∧
      instr.opcode.branchTarget = some target := by
  cases inst with
  | call made =>
      rw [replacedCall] at replaced
      cases attached : made.irInst with
      | none => simp [attached] at replaced
      | some irInst =>
          cases isTarget : made.opcode.branchTarget with
          | none => simp [attached, isTarget] at replaced
          | some target =>
              simp only [attached, isTarget, Option.some.injEq, Prod.mk.injEq] at replaced
              obtain ⟨rfl, -, rfl⟩ := replaced
              exact ⟨rfl, Option.isSome_of_eq_some attached, isTarget⟩
  | _ => exact nomatch replaced

theorem nextCall_spec {code front behind : List PassInst} {instr : CallInstr} {irInst : IRInst}
    {target : BranchTarget} (found : nextCall code = some (front, instr, irInst, target, behind)) :
    code = front ++ .call instr :: behind ∧ instr.irInst.isSome = true ∧
      instr.opcode.branchTarget = some target := by
  induction code generalizing front with
  | nil => exact nomatch found
  | cons inst rest inductionHypothesis =>
      rw [nextCall] at found
      cases replaced : inst.replacedCall with
      | some parts =>
          obtain ⟨made, attached, isTarget⟩ := parts
          simp only [replaced, Option.some.injEq, Prod.mk.injEq] at found
          obtain ⟨rfl, rfl, rfl, rfl, rfl⟩ := found
          obtain ⟨rfl, isBranch⟩ := PassInst.replacedCall_spec replaced
          exact ⟨rfl, isBranch⟩
      | none =>
          simp only [replaced, Option.map_eq_some_iff, Prod.mk.injEq] at found
          obtain ⟨⟨laterFront, parts⟩, later, rfl, rfl⟩ := found
          obtain ⟨rfl, isBranch⟩ := inductionHypothesis later
          exact ⟨rfl, isBranch⟩

theorem PassState.visit_cases {moduleID : BitVec 64} {state after : PassState}
    {signalHandler : Bool} {mbb : MachineBasicBlock} {rest : List MachineBasicBlock}
    (visits : state.visit moduleID signalHandler mbb rest = some after) :
    Visits moduleID state mbb rest after := by
  rw [visit.eq_def] at visits
  cases found : nextCall mbb.code with
  | some parts =>
      obtain ⟨front, instr, irInst, target, behind⟩ := parts
      obtain ⟨code, attached, isTarget⟩ := nextCall_spec found
      simp only [found] at visits
      by_cases last : (behind.isEmpty && mbb.exit.isNone) = true
      · simp only [if_pos last] at visits
        simp only [Bool.and_eq_true, List.isEmpty_iff, Option.isNone_iff_eq_none] at last
        obtain ⟨rfl, noExit⟩ := last
        exact .branch (.lastCall code noExit attached isTarget) visits
      · simp only [if_neg last] at visits
        exact .branch (.call code attached isTarget) visits
  | none =>
      simp only [found] at visits
      cases isExit : mbb.exit with
      | none =>
          simp only [isExit, Option.some.injEq] at visits
          exact visits ▸ .skip
      | some exit =>
          simp only [isExit] at visits
          split at visits
          · rename_i isRet
            split at visits
            · exact Option.some.inj visits ▸ .sigreturn isExit isRet
            · exact Option.some.inj visits ▸ .ret isExit isRet
          · rename_i attached isTarget notRet
            exact .branch (.exit isExit (Option.isSome_of_eq_some attached) isTarget) visits
          · exact Option.some.inj visits ▸ .skip

theorem MachineBasicBlock.branches_eq_zero {mbb : MachineBasicBlock}
    (noExit : mbb.exit = none) (noCall : ∀ inst ∈ mbb.code, inst.isCall = false) :
    mbb.branches = 0 := by
  have none_counted : mbb.code.countP PassInst.isCall = 0 :=
    List.countP_eq_zero.mpr fun inst listed => by
      rw [noCall inst listed]
      exact Bool.false_ne_true
  rw [branches, none_counted, noExit]
  rfl

theorem tailBlocks_branches {branch : Place} {regs : CheckRegs} {isReturn : Bool}
    {mbb : MachineBasicBlock} (listed : mbb ∈ tailBlocks branch regs isReturn) :
    mbb.branches = 0 := by
  simp only [tailBlocks, List.mem_cons, List.not_mem_nil, or_false] at listed
  rcases listed with rfl | rfl | rfl | rfl
  · rfl
  · rfl
  · rfl
  · refine MachineBasicBlock.branches_eq_zero rfl fun inst listed => ?_
    rcases List.mem_append.mp listed with moved | last
    · split at moved
      · rw [List.mem_singleton.mp moved]
        rfl
      · exact nomatch moved
    · rw [List.mem_singleton.mp last]
      rfl

theorem branchesIn_tailBlocks (branch : Place) (regs : CheckRegs) (isReturn : Bool) :
    branchesIn (tailBlocks branch regs isReturn) = 0 := by
  refine List.sum_eq_zero fun count listed => ?_
  obtain ⟨mbb, isTail, rfl⟩ := List.mem_map.mp listed
  exact tailBlocks_branches isTail

theorem mcfiX64ICJ_branches (branch : Place) (regs : CheckRegs) {cj : PassInst} (falls : Bool)
    (succs : List Label) (notCall : cj.isCall = false) :
    (mcfiX64ICJ branch regs cj falls succs).branches = 0 := by
  refine MachineBasicBlock.branches_eq_zero rfl fun inst listed => ?_
  rcases List.mem_append.mp listed with reload | last
  · obtain ⟨instr, -, rfl⟩ := List.mem_map.mp reload
    rfl
  · rw [List.mem_singleton.mp last]
    exact notCall

/-- A branch is one more than the branches of the block that begins behind it. -/
theorem Replaces.branches {mbb : MachineBasicBlock} {front : List PassInst}
    {next : Option MachineBasicBlock} {target : BranchTarget} {uses : List RegUse}
    {cj : Reg → BitVec 64 → PassInst} (replaces : Replaces mbb front next target uses cj) :
    branchesIn next.toList + 1 ≤ mbb.branches ∧
      next.toList.length ≤ 1 ∧ ∀ reg slot, (cj reg slot).isCall = false := by
  cases replaces with
  | lastCall code noExit attached isTarget =>
      refine ⟨?_, Nat.zero_le _, fun _ _ => rfl⟩
      simp only [MachineBasicBlock.branches, code, List.countP_append]
      exact Nat.le_trans (Nat.le_add_left _ _) (Nat.le_add_right _ _)
  | call code attached isTarget =>
      refine ⟨?_, Nat.le_refl _, fun _ _ => rfl⟩
      simp only [branchesIn, MachineBasicBlock.branches, code, List.countP_append,
        List.countP_cons, PassInst.isCall, Option.toList_some, List.map_cons, List.map_nil,
        List.sum_cons, List.sum_nil, if_pos]
      omega
  | exit isExit attached isTarget =>
      refine ⟨?_, Nat.zero_le _, fun _ _ => rfl⟩
      simp [branchesIn, MachineBasicBlock.branches, isExit]

namespace PassState

variable {moduleID : BitVec 64} {state after : PassState} {mbb : MachineBasicBlock}
  {rest : List MachineBasicBlock}

/-- What is inserted adds no branch but those of the block that begins behind it. -/
theorem insertCheck_branches {front : List PassInst} {next : Option MachineBasicBlock}
    {branch : Place} {regs : CheckRegs} {truncation : List Instr} {cj : PassInst}
    {isReturn : Bool} (notCall : cj.isCall = false) :
    branchesIn (state.insertCheck moduleID mbb front next rest branch regs truncation cj
      isReturn).pending = branchesIn next.toList + branchesIn rest := by
  have none_in_icj := mcfiX64ICJ_branches branch regs (mbb.fallsBehind next)
    (mbb.succsBehind next) notCall
  have none_in_idCmp : (mcfiX64IDCmp branch regs moduleID state.barySlot).branches = 0 := rfl
  have none_in_tail := branchesIn_tailBlocks branch regs isReturn
  simp only [branchesIn] at none_in_tail ⊢
  simp [insertCheck, none_in_icj, none_in_idCmp, none_in_tail]

theorem insertCheck_length {front : List PassInst} {next : Option MachineBasicBlock}
    {branch : Place} {regs : CheckRegs} {truncation : List Instr} {cj : PassInst}
    {isReturn : Bool} :
    (state.insertCheck moduleID mbb front next rest branch regs truncation cj
      isReturn).pending.length = next.toList.length + rest.length + 6 := by
  simp [insertCheck, tailBlocks]
  omega

/-- What `MCFIx64IndirectCall` does when it does not stop. -/
theorem mcfiX64IndirectCall_spec {front : List PassInst} {next : Option MachineBasicBlock}
    {branch : Place} {target : BranchTarget} {uses : List RegUse} {irInst : IRInst}
    {cj : Reg → BitVec 64 → PassInst} {tailCall : Bool}
    (made : state.mcfiX64IndirectCall moduleID mbb front next rest branch target uses irInst
      cj tailCall = some after) :
    after = {
      state.insertCheck moduleID mbb front next rest branch
        (state.branchSite mbb front next rest target uses).1.checkRegs
        (state.branchSite mbb front next rest target uses).1.truncation
        (cj (state.branchSite mbb front next rest target uses).1.checkRegs.target
          (slotNumber moduleID state.barySlot)) false with
      loads32 := (narrowedLoad mbb
        (state.branchSite mbb front next rest target uses)).toList ++ state.loads32
      indirectCalls := state.indirectCalls ++ [slotNumber moduleID state.barySlot]
      indirectTailCalls := state.indirectTailCalls ++
        if tailCall then [slotNumber moduleID state.barySlot] else [] } := by
  cases irInst with
  | other => exact nomatch made
  | call => exact (Option.some.inj made).symm
  | invoke => exact (Option.some.inj made).symm

/-- A visit leaves fewer branches, or no more of them and fewer blocks. -/
theorem visits_decrease (visits : Visits moduleID state mbb rest after) :
    8 * branchesIn after.pending + after.pending.length <
      8 * branchesIn (mbb :: rest) + (mbb :: rest).length := by
  have whole : branchesIn (mbb :: rest) = mbb.branches + branchesIn rest := List.sum_cons
  rw [whole, List.length_cons]
  cases visits with
  | skip =>
      simp only [skip]
      omega
  | sigreturn isExit isRet =>
      simp only [mcfiX64Sigreturn, skip]
      omega
  | ret isExit isRet =>
      have one : 1 ≤ mbb.branches := by simp [MachineBasicBlock.branches, isExit]
      simp only [mcfiX64Ret]
      rw [insertCheck_branches rfl, insertCheck_length]
      simp only [branchesIn, Option.toList_none, List.map_nil, List.sum_nil, List.length_nil]
      omega
  | branch replaces made =>
      obtain ⟨fewer, atMostOne, notCall⟩ := replaces.branches
      obtain rfl := mcfiX64IndirectCall_spec made
      simp only
      rw [insertCheck_branches (notCall _ _), insertCheck_length]
      omega

/-- `MCFIx64`: visit the blocks in their order, with those that are inserted behind. -/
def mcfiX64 (moduleID : BitVec 64) (signalHandler : Bool) (state : PassState) :
    Option PassState :=
  match _ : state.pending with
  | [] => some state
  | mbb :: rest =>
      match _ : state.visit moduleID signalHandler mbb rest with
      | none => none
      | some after => after.mcfiX64 moduleID signalHandler
  termination_by 8 * branchesIn state.pending + state.pending.length
  decreasing_by
    rw [‹state.pending = mbb :: rest›]
    exact visits_decrease (visit_cases ‹_›)

theorem mcfiX64_nil {signalHandler : Bool} (left : state.pending = []) :
    state.mcfiX64 moduleID signalHandler = some state := by
  rw [mcfiX64.eq_def]
  split
  · rfl
  · rename_i shape
    exact nomatch left.symm.trans shape

theorem mcfiX64_cons {signalHandler : Bool} (left : state.pending = mbb :: rest) :
    state.mcfiX64 moduleID signalHandler =
      (state.visit moduleID signalHandler mbb rest).bind fun after =>
        after.mcfiX64 moduleID signalHandler := by
  rw [mcfiX64.eq_def]
  split
  · rename_i shape
    exact nomatch shape.symm.trans left
  · rename_i shape
    obtain ⟨rfl, rfl⟩ := List.cons.inj (shape.symm.trans left)
    split
    · rename_i stops
      rw [stops]
      rfl
    · rename_i visits
      rw [visits]
      rfl

/-- What a visit keeps holds when the pass is done. -/
theorem mcfiX64_run {signalHandler : Bool} {invariant : PassState → Prop}
    (step : ∀ state mbb rest next, invariant state → state.pending = mbb :: rest →
      Visits moduleID state mbb rest next → invariant next)
    (start : invariant state) (passes : state.mcfiX64 moduleID signalHandler = some after) :
    invariant after ∧ after.pending = [] := by
  induction state using mcfiX64.induct moduleID signalHandler with
  | case1 state left =>
      rw [mcfiX64_nil left] at passes
      exact Option.some.inj passes ▸ ⟨start, left⟩
  | case2 state mbb rest left stops =>
      rw [mcfiX64_cons left, stops] at passes
      exact nomatch passes
  | case3 state mbb rest left next visits inductionHypothesis =>
      rw [mcfiX64_cons left, visits] at passes
      exact inductionHypothesis (step _ _ _ _ start left (visit_cases visits)) passes

end PassState

end Pass

section Emission

/-- An instruction that is emitted: a branch through a register or memory, or another. -/
inductive MCInst where
  | plain
  | call (opcode : CallOpcode)
  | exit (opcode : ExitOpcode) (tableJump : Bool)

/-- `BarySlot != (unsigned long)-1`. -/
def hasBarySlot (barySlot : BitVec 64) : Bool :=
  barySlot ≠ BitVec.allOnes 64

/-- `EmitInstruction` at a call; it stops at one that should have been replaced. -/
def emitCall (opcode : CallOpcode) (hasBarySlot : Bool) : Option (List MCInst) :=
  match opcode with
  | .call64m _ => none
  | .call32m _ => none
  | .call64r target => if hasBarySlot then some [.call (.call64r target)] else none
  | .call32r target => if hasBarySlot then some [.call (.call32r target)] else none
  | .patchpoint callTarget scratch =>
      some (if callTarget = 0 then [] else [.plain, .call (.call64r scratch)])
  | opcode => some [.call opcode]

/--
`EmitInstruction` at a return, a jump or a tail call.  A jump table is jumped through
with 32 or 64 bits.
-/
def emitExit (pic : Bool) (opcode : ExitOpcode) (hasBarySlot tableJump : Bool) :
    Option (List MCInst) :=
  match opcode with
  | .retw => none
  | .retl => none
  | .retq => none
  | .tailJmpM _ => none
  | .tailJmpM64 _ => none
  | .jmp32m target jti =>
      if jti || pic && tableJump then some [.exit (.jmp32m target jti) true] else none
  | .jmp64m target jti =>
      if jti || pic && tableJump then some [.exit (.jmp64m target jti) true] else none
  | .jmp32r target =>
      if hasBarySlot || tableJump then some [.exit (.jmp32r target) tableJump] else none
  | .jmp64r target =>
      if hasBarySlot || tableJump then some [.exit (.jmp64r target) tableJump] else none
  | .tailJmpR target =>
      if hasBarySlot || tableJump then some [.exit (.jmp32r target) tableJump] else none
  | .tailJmpR64 target =>
      if hasBarySlot || tableJump then some [.exit (.tailJmpR64 target) tableJump] else none
  | .ehReturn _ => some [.exit .retq false]
  | .ehReturn64 _ => some [.exit .retq false]
  | .morestackRet => some [.exit .retq false]
  | .morestackRetRestoreR10 => some [.exit .retq false, .plain]
  | opcode => some [.exit opcode false]

/-- `EmitInstruction`. -/
def PassInst.emit (pic : Bool) : PassInst → Option (List MCInst)
  | call instr => emitCall instr.opcode false
  | checkedCall _ target barySlot => emitCall (.call64r target) (hasBarySlot barySlot)
  | checkedExit opcode barySlot => emitExit pic opcode (hasBarySlot barySlot) false
  | _ => some [.plain]

namespace MachineBasicBlock

variable (pic : Bool) (mbb : MachineBasicBlock)

/-- What becomes of the instruction at an index, or of the branch behind them. -/
def emitAt (index : Nat) : Option (List MCInst) :=
  match mbb.code[index]?, mbb.exit with
  | some inst, _ => inst.emit pic
  | none, some exit => emitExit pic exit.opcode false exit.tableJump
  | none, none => some []

/-- All instructions of a block are emitted. -/
def emits : Bool :=
  (List.range (mbb.code.length + 1)).all fun index => (mbb.emitAt pic index).isSome

end MachineBasicBlock

/-- Compile a function of a module: the pass, and then `EmitInstruction`. -/
def MachineFunction.compile (f : MachineFunction) (pic : Bool) (moduleID : BitVec 64)
    (before : PassState) : Option PassState :=
  let start := { before with
    visited := []
    pending := f.mbbs
    loads32 := [] }
  match start.mcfiX64 moduleID f.signalHandler with
  | none => none
  | some state => if state.visited.all (·.emits pic) then some state else none

/-- The state in front of the first function of a module. -/
def moduleStart : PassState where
  visited := []
  pending := []
  loads32 := []
  barySlot := 0
  returns := []
  indirectCalls := []
  indirectTailCalls := []

/-- Compile functions of a module, one behind the other. -/
def compileModule (pic : Bool) (moduleID : BitVec 64) (fs : List MachineFunction) :
    Option PassState :=
  fs.foldlM (fun before f => f.compile pic moduleID before) moduleStart

end Emission

end Mcfi
