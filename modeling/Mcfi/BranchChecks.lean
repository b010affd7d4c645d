import Mathlib.Logic.Relation
import Mcfi.BranchLayout

namespace Mcfi

open X86 Relation

/-!
# Checks in front of returns and indirect branches

A function behind `MCFIx64` and `EmitInstruction` runs from one block to the next in the
order they stand in, or along its jumps.  Every return and indirect branch in it is to be
reached through the check on its own register, with a Bary slot of its own.
-/

section Execution

/--
A load as it is emitted: 32 bits wide where the pass made it so, and into `rsp`, where
`MCFIx64StackPointer` does.
-/
def emittedForm (loads32 : List Place) (place : Place) (instr : MachineInstr) : EmittedInstr :=
  match instr with
  | .mov64rm dst src =>
      if place ∈ loads32 ∨ dst = .rsp then .mov32rm dst src else .original (.mov64rm dst src)
  | instr => .original instr

/--
What an instruction does when control goes on behind it.  The effect of an instruction
that defines `rsp` includes what `MCFIx64StackPointer` makes of it, and the effect of a
call includes its callee.
-/
inductive PassInst.Executes (effect : Effect) (loads32 : List Place) (place : Place) :
    PassInst → Machine → Machine → Prop where
  | plain (instr : MachineInstr) (m : Machine) :
      Executes effect loads32 place (.plain instr) m
        ((emittedForm loads32 place instr).exec effect m)
  | call (instr : CallInstr) (m : Machine) :
      Executes effect loads32 place (.call instr) m (instr.named.exec effect m)
  | jump (target : Nat) (m : Machine) : Executes effect loads32 place (.jump target) m m
  | check (instr : Instr) (m : Machine) (read : BitVec 64) :
      Executes effect loads32 place (.check instr) m (execReading read instr m)
  | baryRead (instr : Instr) (barySlot : BitVec 64) (m : Machine) (read : BitVec 64) :
      Executes effect loads32 place (.baryRead instr barySlot) m (execReading read instr m)
  | jcc {onZero : Bool} (target : Label) {m : Machine} (stays : m.zf ≠ onZero) :
      Executes effect loads32 place (.jcc onZero target) m m
  | checkedCall (instr : CallInstr) (target : Reg) (barySlot : BitVec 64) (m : Machine) :
      Executes effect loads32 place (.checkedCall instr target barySlot) m
        (instr.named.exec effect m)

/-- Where an instruction jumps to. -/
inductive PassInst.JumpsTo : PassInst → Machine → Label → Prop where
  | jump (block : Nat) (m : Machine) : JumpsTo (.jump block) m (.part ⟨block, 0⟩)
  | jcc {onZero : Bool} (target : Label) {m : Machine} (goes : m.zf = onZero) :
      JumpsTo (.jcc onZero target) m target

/-- A processor in front of an instruction of a block. -/
structure RunState where
  mbb : MachineBasicBlock
  index : Nat
  m : Machine

/--
One step: behind an instruction, along a jump, from a jump-table jump to a successor, or
over the end of a block into the next one.
-/
inductive PassState.Runs (state : PassState) (effect : Effect) :
    RunState → RunState → Prop where
  | instr {mbb : MachineBasicBlock} {index : Nat} {m after : Machine} {inst : PassInst}
      (found : mbb.code[index]? = some inst)
      (executes : inst.Executes effect state.loads32 (mbb.place index) m after) :
      Runs state effect ⟨mbb, index, m⟩ ⟨mbb, index + 1, after⟩
  | jump {mbb target : MachineBasicBlock} {index : Nat} {m : Machine} {inst : PassInst}
      (found : mbb.code[index]? = some inst) (jumps : inst.JumpsTo m target.label)
      (listed : target ∈ state.visited) :
      Runs state effect ⟨mbb, index, m⟩ ⟨target, 0, m⟩
  | tableJump {mbb target : MachineBasicBlock} {m : Machine} {exit : ExitInstr}
      (isExit : mbb.exit = some exit) (isSucc : target.label ∈ mbb.succs)
      (listed : target ∈ state.visited) :
      Runs state effect ⟨mbb, mbb.code.length, m⟩ ⟨target, 0, m⟩
  | falls {mbb next : MachineBasicBlock} {m : Machine} (noExit : mbb.exit = none)
      (falls : mbb.falls = true) (follows : [mbb, next] <:+: state.visited) :
      Runs state effect ⟨mbb, mbb.code.length, m⟩ ⟨next, 0, m⟩

/-- The first block of a function, in front of its first instruction. -/
def PassState.Enters (state : PassState) (start : RunState) : Prop :=
  start.mbb ∈ state.visited ∧ start.mbb.label = .part ⟨0, 0⟩ ∧ start.index = 0

/-- The part of a check that is behind the read of the target's ID when it passes. -/
def RunState.InCheck (branch : Place) (s : RunState) : Prop :=
  s.mbb.label = .check branch .idCmp ∧ 1 ≤ s.index ∨
    s.mbb.label = .check branch .interopCheck ∨ s.mbb.label = .check branch .icj

end Execution

section Property

/-- An instruction is a return, an indirect call or an indirect jump, but no table jump. -/
def MCInst.isIndirect : MCInst → Bool
  | plain => false
  | call _ => true
  | exit _ tableJump => !tableJump

/-- The register that an instruction branches through. -/
def MCInst.through : MCInst → Option Reg
  | call (.call64r target) => some target
  | exit (.jmp64r target) _ => some target
  | exit (.tailJmpR64 target) _ => some target
  | _ => none

/--
A branch through a register is reached through the check on it.  The check read the ID of
the target, the register held less than 4 GiB, and it has not changed up to the branch;
the registers that were reloaded in between are others.
-/
structure PassState.Checked (moduleID : BitVec 64) (state : PassState) (effect : Effect)
    (start s : RunState) (target : Reg) : Prop where
  check : ∃ branch regs barySlot m, regs.target = target ∧ regs.bid ≠ target ∧
    regs.tid ≠ target ∧ mcfiX64IDCmp branch regs moduleID barySlot ∈ state.visited ∧
    ReflTransGen (state.Runs effect) start
      ⟨mcfiX64IDCmp branch regs moduleID barySlot, 1, m⟩ ∧
    ReflTransGen (fun s t => state.Runs effect s t ∧ s.InCheck branch ∧ t.InCheck branch)
      ⟨mcfiX64IDCmp branch regs moduleID barySlot, 1, m⟩ s ∧
    s.mbb.label = .check branch .icj ∧ (m.regs target).toNat < 2 ^ 32 ∧
    s.m.regs target = m.regs target

/-- The Bary slots that the checks of a function read. -/
def PassState.readSlots (state : PassState) : List (BitVec 64) :=
  (state.visited ++ state.pending).flatMap fun mbb => mbb.code.filterMap PassInst.readSlot

/--
No branch is emitted without a check: every one that is reached is checked, the checks
read different slots, each of them is recorded once, and the branch behind a check has
its slot.
-/
structure PassState.Guarded (pic : Bool) (moduleID : BitVec 64) (state : PassState) : Prop where
  checked : ∀ effect, Interprets effect → ∀ start s, state.Enters start →
    ReflTransGen (state.Runs effect) start s → ∀ emitted inst,
      s.mbb.emitAt pic s.index = some emitted → inst ∈ emitted → inst.isIndirect = true →
        ∃ target, inst.through = some target ∧ state.Checked moduleID effect start s target
  ownSlot : state.readSlots.Nodup
  recorded : ∀ slot ∈ state.readSlots, (state.returns ++ state.indirectCalls).count slot = 1
  sameSlot : ∀ first second, [first, second] <:+: state.visited →
    ∀ slot ∈ second.code.filterMap PassInst.branchSlot,
      slot ∈ first.code.filterMap PassInst.readSlot

/-- An opcode that the pass replaces or `EmitInstruction` examines. -/
def CallOpcode.examined : CallOpcode → Bool
  | call64r _ => true
  | call64m _ => true
  | call32r _ => true
  | call32m _ => true
  | patchpoint callTarget _ => callTarget = 0
  | _ => false

/-- An opcode that the pass replaces or `EmitInstruction` examines. -/
def ExitOpcode.examined : ExitOpcode → Bool
  | retq => true
  | retl => true
  | retw => true
  | jmp64r _ => true
  | jmp64m _ _ => true
  | jmp32r _ => true
  | jmp32m _ _ => true
  | tailJmpR64 _ => true
  | tailJmpM64 _ => true
  | tailJmpR _ => true
  | tailJmpM _ => true
  | _ => false

/--
The functions whose branches are all checked: the opcodes are examined, a check leaves
the target to its own branch, and no instruction clobbers a target behind its load.
-/
structure MachineFunction.Checkable (f : MachineFunction) : Prop where
  calls : ∀ place instr, f.inst? place = some (.call instr) → instr.opcode.examined = true
  exits : ∀ block ∈ f.blocks, ∀ exit, block.exitInstr = some exit →
    exit.opcode.examined = true
  target : ∀ place target uses, f.BranchAt place (.reg target) uses →
    target ∉ (siteOf (.reg target) uses).scratchRegs.take 2 ∧ target ≠ .rsp
  live : f.TargetsLive

end Property

section Narrow

/-- The registers that are narrow in front of an instruction hold less than 4 GiB. -/
def MachineFunction.NarrowHeld (f : MachineFunction) (loads32 : List Place) (place : Place)
    (m : Machine) : Prop :=
  ∀ reg, reg ≠ .rsp → f.NarrowAt loads32 place reg → (m.regs reg).toNat < 2 ^ 32

variable {f : MachineFunction} {loads32 : List Place} {effect : Effect} {place : Place}
  {m after : Machine} {inst : PassInst} {reg : Reg} {block : FunctionBlock}

theorem FunctionBlock.inst_cases (listed : inst ∈ block.insts) :
    (∃ instr, inst = .plain instr) ∨ (∃ instr, inst = .call instr) ∨
      ∃ target ∈ block.jumps, inst = .jump target := by
  rcases List.mem_append.mp listed with inBody | isJump
  · obtain ⟨instr, -, rfl⟩ := List.mem_map.mp inBody
    cases instr with
    | plain instr => exact .inl ⟨instr, rfl⟩
    | call instr => exact .inr (.inl ⟨instr, rfl⟩)
  · obtain ⟨target, isTarget, rfl⟩ := List.mem_map.mp isJump
    exact .inr (.inr ⟨target, isTarget, rfl⟩)

/-- Behind a direct jump there are only direct jumps. -/
theorem FunctionBlock.jump_behind {index later target : Nat}
    (isJump : block.insts[index]? = some (.jump target)) (behind : index ≤ later)
    (found : block.insts[later]? = some inst) : ∃ target, inst = .jump target := by
  have inJumps : block.body.length ≤ index := by
    by_contra early
    rw [insts, List.getElem?_append_left (by simpa using early), List.getElem?_map] at isJump
    obtain ⟨instr, -, never⟩ := Option.map_eq_some_iff.mp isJump
    cases instr <;> exact nomatch never
  rw [insts, List.getElem?_append_right (by simpa using inJumps.trans behind),
    List.getElem?_map] at found
  obtain ⟨target, -, rfl⟩ := Option.map_eq_some_iff.mp found
  exact ⟨target, rfl⟩

theorem MachineFunction.inst_listed (found : f.inst? place = some inst) :
    ∃ block ∈ f.blocks, inst ∈ block.insts := by
  obtain ⟨block, isBlock, isInst⟩ := Option.bind_eq_some_iff.mp found
  exact ⟨block, List.mem_of_getElem? isBlock, List.mem_of_getElem? isInst⟩

theorem load32_lt (mem : ByteMem) (addr : Nat) :
    (BitVec.ofNat 64 (mem.load addr 4)).toNat < 2 ^ 32 := by
  rw [load_truncated]
  exact truncated_lt _

/-- An instruction of the function leaves the registers that it does not name alone. -/
theorem PassInst.Executes.frame (interprets : Interprets effect)
    (found : f.inst? place = some inst)
    (executes : inst.Executes effect loads32 place m after) (undefined : reg ∉ inst.defs)
    (kept : reg ∉ inst.clobbers) : after.regs reg = m.regs reg := by
  obtain ⟨block, -, listed⟩ := f.inst_listed found
  rcases FunctionBlock.inst_cases listed with ⟨instr, rfl⟩ | ⟨instr, rfl⟩ | ⟨target, -, rfl⟩
  · obtain ⟨⟩ := executes
    cases instr with
    | mov64rm dst src =>
        have other : reg ≠ dst := fun same => undefined (List.mem_singleton.mpr same)
        rw [emittedForm]
        split
        · exact setReg_other _ _ other
        · exact setReg_other _ _ other
    | other opcode uses defs clobbers => exact interprets.frame _ m reg undefined kept
  · obtain ⟨⟩ := executes
    exact interprets.frame _ m reg undefined kept
  · obtain ⟨⟩ := executes
    rfl

/-- An instruction of the function keeps what is narrow below 4 GiB. -/
theorem MachineFunction.NarrowHeld.step (interprets : Interprets effect)
    (held : f.NarrowHeld loads32 place m) (found : f.inst? place = some inst)
    (executes : inst.Executes effect loads32 place m after) :
    f.NarrowHeld loads32 (place.advance 1) after := by
  intro reg notStack narrow
  rcases narrow with ⟨isNarrow, src, isLoad⟩ | ⟨⟨undefined, kept⟩, earlier⟩
  · obtain rfl := Option.some.inj (found.symm.trans isLoad)
    obtain ⟨⟩ := executes
    rw [emittedForm, if_pos (.inl isNarrow)]
    change ((m.setReg reg _).regs reg).toNat < 2 ^ 32
    rw [setReg_same]
    exact load32_lt _ _
  · rw [executes.frame interprets found (fun defined => undefined ⟨inst, found, defined⟩)
      fun clobbered => kept (.inl ⟨inst, found, clobbered⟩)]
    exact held reg notStack earlier

/-- What is narrow behind direct jumps is narrow in front of them. -/
theorem MachineFunction.NarrowIn.back {home index count : Nat} {atStart : Reg → Prop}
    (others : ∀ later, index ≤ later → later < index + count →
      ∀ reg, ¬ f.Narrows loads32 ⟨home, later⟩ reg)
    (narrow : f.NarrowIn loads32 home atStart (index + count) reg) :
    f.NarrowIn loads32 home atStart index reg := by
  induction count with
  | zero => exact narrow
  | succ count inductionHypothesis =>
      rcases narrow with narrows | ⟨-, earlier⟩
      · exact absurd narrows (others (index + count) (Nat.le_add_right _ _)
          (Nat.lt_succ_self _) reg)
      · exact inductionHypothesis
          (fun later above below => others later above (Nat.lt_succ_of_lt below)) earlier

/-- A successor is entered from a place behind which there is no load. -/
theorem MachineFunction.NarrowHeld.enter {next : Nat} (held : f.NarrowHeld loads32 place m)
    (found : f.blocks[place.block]? = some block) (inside : place.index ≤ block.insts.length)
    (isSucc : next ∈ block.succs)
    (others : ∀ later, place.index ≤ later → later < block.insts.length →
      ∀ reg, ¬ f.Narrows loads32 ⟨place.block, later⟩ reg) :
    f.NarrowHeld loads32 ⟨next, 0⟩ m := by
  rintro reg notStack ⟨index, pred, isPred, only, -, narrow⟩
  obtain rfl := only place.block block found isSucc
  obtain rfl := Option.some.inj (found.symm.trans isPred)
  obtain ⟨count, atEnd⟩ := Nat.exists_eq_add_of_le inside
  rw [atEnd] at narrow others
  refine held reg notStack (NarrowIn.back others ?_)
  exact narrow.mono (List.Subset.refl _) fun _ => False.elim

/-- The first block is entered with nothing narrow. -/
theorem MachineFunction.narrowHeld_entry (f : MachineFunction) (loads32 : List Place)
    (m : Machine) : f.NarrowHeld loads32 ⟨0, 0⟩ m := by
  rintro reg - ⟨index, pred, -, -, notEntry, -⟩
  exact absurd rfl notEntry

end Narrow

section Shapes

variable {f : MachineFunction} {moduleID : BitVec 64} {loads32 : List Place}
  {mbb : MachineBasicBlock} {branch place : Place} {regs other : CheckRegs}

theorem MachineFunction.BranchAt.found {target : BranchTarget} {uses : List RegUse}
    (isBranch : f.BranchAt place target uses) :
    (∃ instr, f.inst? place = some (.call instr) ∧ instr.opcode.branchTarget = some target ∧
        instr.uses = uses) ∨
      ∃ block exit, f.blocks[place.block]? = some block ∧
        place.index = block.insts.length ∧ block.exitInstr = some exit ∧
          exit.opcode.branchTarget = some target ∧ exit.uses = uses := by
  cases isBranch with
  | call found attached isTarget => exact .inl ⟨_, found, isTarget, rfl⟩
  | exit found isExit attached isTarget =>
      exact .inr ⟨_, _, found, rfl, isExit, isTarget, rfl⟩

theorem MachineFunction.CheckAt.found (check : f.CheckAt place regs) :
    (∃ block exit, f.blocks[place.block]? = some block ∧
        place.index = block.insts.length ∧ block.exitInstr = some exit ∧
          exit.opcode = .retq ∧ regs = retRegs) ∨
      ∃ target uses, f.BranchAt place target uses ∧
        regs = (siteOf target uses).checkRegs := by
  cases check with
  | ret found isExit isRet => exact .inl ⟨_, _, found, rfl, isExit, isRet, rfl⟩
  | branch isBranch => exact .inr ⟨_, _, isBranch, rfl⟩

/-- A call does not stand at the end of its block. -/
theorem MachineFunction.call_inside {instr : CallInstr} {block : FunctionBlock}
    (found : f.blocks[place.block]? = some block)
    (isCall : f.inst? place = some (.call instr)) : place.index < block.insts.length := by
  rw [f.inst?_eq place found] at isCall
  exact (List.getElem?_eq_some_iff.mp isCall).1

/-- There is one branch at a place. -/
theorem MachineFunction.BranchAt.unique {target target' : BranchTarget}
    {uses uses' : List RegUse} (first : f.BranchAt place target uses)
    (second : f.BranchAt place target' uses') : target = target' ∧ uses = uses' := by
  rcases first.found with ⟨instr, isCall, isTarget, rfl⟩ |
    ⟨block, exit, found, atEnd, isExit, isTarget, rfl⟩ <;>
  rcases second.found with ⟨instr', isCall', isTarget', rfl⟩ |
    ⟨block', exit', found', atEnd', isExit', isTarget', rfl⟩
  · obtain ⟨⟩ := Option.some.inj (isCall.symm.trans isCall')
    exact ⟨Option.some.inj (isTarget.symm.trans isTarget'), rfl⟩
  · exact absurd (f.call_inside found' isCall) (by omega)
  · exact absurd (f.call_inside found isCall') (by omega)
  · obtain rfl := Option.some.inj (found.symm.trans found')
    obtain rfl := Option.some.inj (isExit.symm.trans isExit')
    exact ⟨Option.some.inj (isTarget.symm.trans isTarget'), rfl⟩

/-- A return is no other branch. -/
theorem MachineFunction.BranchAt.not_retq {target : BranchTarget} {uses : List RegUse}
    {block : FunctionBlock} {exit : ExitInstr} (isBranch : f.BranchAt place target uses)
    (found : f.blocks[place.block]? = some block)
    (atEnd : place.index = block.insts.length) (isExit : block.exitInstr = some exit) :
    exit.opcode ≠ .retq := by
  intro isRet
  rcases isBranch.found with ⟨instr, isCall, -⟩ |
    ⟨block', exit', found', -, isExit', isTarget, -⟩
  · exact absurd (f.call_inside found isCall) (by omega)
  · obtain rfl := Option.some.inj (found.symm.trans found')
    obtain rfl := Option.some.inj (isExit.symm.trans isExit')
    rw [isRet] at isTarget
    exact nomatch isTarget

/-- The check in front of a branch has one choice of registers. -/
theorem MachineFunction.CheckAt.unique (first : f.CheckAt place regs)
    (second : f.CheckAt place other) : regs = other := by
  rcases first.found with ⟨block, exit, found, atEnd, isExit, isRet, rfl⟩ |
    ⟨target, uses, isBranch, rfl⟩ <;>
  rcases second.found with ⟨block', exit', found', atEnd', isExit', isRet', rfl⟩ |
    ⟨target', uses', isBranch', rfl⟩
  · rfl
  · exact absurd isRet (isBranch'.not_retq found atEnd isExit)
  · exact absurd isRet' (isBranch.not_retq found' atEnd' isExit')
  · obtain ⟨rfl, rfl⟩ := isBranch.unique isBranch'
    rfl

/-- A part of a block of the function, with what stands behind it in its block. -/
inductive PartOf (f : MachineFunction) (loads32 : List Place) (start : Place)
    (block : FunctionBlock) : MachineBasicBlock → Nat → List Instr → Prop where
  | rest : PartOf f loads32 start block (block.rest start)
      (block.insts.length - start.index) []
  | handler : PartOf f loads32 start block (block.handler start)
      (block.insts.length - start.index) [.pop .rcx]
  | front {branch : Place} {regs : CheckRegs} {truncation : List Instr}
      (home : branch.block = start.block) (behind : start.index ≤ branch.index)
      (inside : branch.index ≤ block.insts.length) (check : f.CheckAt branch regs)
      (truncates : f.Truncates loads32 branch regs truncation) :
      PartOf f loads32 start block (block.front start branch (truncation ++ regs.pushes))
        (branch.index - start.index) (truncation ++ regs.pushes)

theorem PlacedBlock.part {start : Place} (placed : PlacedBlock f moduleID loads32 mbb)
    (isPart : mbb.label = .part start) :
    ∃ block length prepare, f.blocks[start.block]? = some block ∧
      start.index ≤ block.insts.length ∧ PartOf f loads32 start block mbb length prepare := by
  cases placed with
  | rest found inside =>
      obtain rfl := Label.part.inj isPart
      exact ⟨_, _, _, found, inside, .rest⟩
  | handler found inside =>
      obtain rfl := Label.part.inj isPart
      exact ⟨_, _, _, found, inside, .handler⟩
  | front found home behind inside check truncates =>
      obtain rfl := Label.part.inj isPart
      exact ⟨_, _, _, found, behind.trans inside, .front home behind inside check truncates⟩
  | _ => exact nomatch isPart

/-- The block behind a check that branches, and the branch. -/
inductive BranchBlock (f : MachineFunction) (branch : Place) (regs : CheckRegs) :
    MachineBasicBlock → Prop where
  | call {instr : CallInstr} {target : BranchTarget} {block : FunctionBlock} {falls : Bool}
      {succs : List Label} (barySlot : BitVec 64)
      (found : f.blocks[branch.block]? = some block)
      (isCall : f.inst? branch = some (.call instr))
      (attached : instr.irInst.isSome = true)
      (isTarget : instr.opcode.branchTarget = some target)
      (isRegs : regs = (siteOf target instr.uses).checkRegs)
      (resumes : falls = true ∧ succs = [.part (branch.advance 1)] ∨
        branch.index + 1 = block.insts.length ∧ falls = block.falls ∧ succs = block.labels) :
      BranchBlock f branch regs
        (mcfiX64ICJ branch regs (.checkedCall instr regs.target barySlot) falls succs)
  | exit {opcode : ExitOpcode} {succs : List Label} (barySlot : BitVec 64)
      (through : opcode = .jmp64r regs.target ∨ opcode = .tailJmpR64 regs.target) :
      BranchBlock f branch regs
        (mcfiX64ICJ branch regs (.checkedExit opcode barySlot) false succs)

/-- What a block of a check is. -/
def BlockOf (f : MachineFunction) (moduleID : BitVec 64) (branch : Place) (regs : CheckRegs)
    (mbb : MachineBasicBlock) : CheckBlock → Prop
  | .idCmp => ∃ barySlot, mbb = mcfiX64IDCmp branch regs moduleID barySlot
  | .icj => BranchBlock f branch regs mbb
  | .interopCheck => mbb = mcfiX64InteropCheck branch regs
  | .idValidityCheck => mbb = mcfiX64IDValidityCheck branch regs
  | .verCheck => mbb = mcfiX64IDVersionCheck branch regs
  | .report => ∃ isReturn, mbb = mcfiX64Report branch regs isReturn

theorem PlacedBlock.check {kind : CheckBlock} (placed : PlacedBlock f moduleID loads32 mbb)
    (isCheck : mbb.label = .check branch kind) (check : f.CheckAt branch regs)
    (notReport : kind ≠ .report) : BlockOf f moduleID branch regs mbb kind := by
  cases placed with
  | idCmp barySlot same =>
      obtain ⟨rfl, rfl⟩ := Label.check.inj isCheck
      exact check.unique same ▸ ⟨barySlot, rfl⟩
  | icjCall barySlot found isCall attached isTarget resumes =>
      obtain ⟨rfl, rfl⟩ := Label.check.inj isCheck
      have same := check.unique (.branch (.call isCall attached isTarget))
      exact same ▸ .call barySlot found isCall attached isTarget same resumes
  | icjExit barySlot same through =>
      obtain ⟨rfl, rfl⟩ := Label.check.inj isCheck
      obtain rfl := check.unique same
      exact .exit barySlot through
  | interopCheck same =>
      obtain ⟨rfl, rfl⟩ := Label.check.inj isCheck
      exact check.unique same ▸ rfl
  | idValidityCheck same =>
      obtain ⟨rfl, rfl⟩ := Label.check.inj isCheck
      exact check.unique same ▸ rfl
  | verCheck same =>
      obtain ⟨rfl, rfl⟩ := Label.check.inj isCheck
      exact check.unique same ▸ rfl
  | report => exact absurd (Label.check.inj isCheck).2.symm notReport
  | _ => exact nomatch isCheck

/-- An instruction of a part is one of the function, or comes in front of a check. -/
theorem PartOf.inst_cases {start : Place} {block : FunctionBlock} {length index : Nat}
    {prepare : List Instr} {inst : PassInst}
    (part : PartOf f loads32 start block mbb length prepare)
    (found : f.blocks[start.block]? = some block) (isInst : mbb.code[index]? = some inst) :
    index < length ∧ f.inst? (start.advance index) = some inst ∨
      length ≤ index ∧ (inst = .sigreturn ∨
        ∃ instr, inst = .check instr ∧ prepare[index - length]? = some instr) := by
  have isFunction {count : Nat} (early : index < count)
      (isInst : ((block.insts.drop start.index).take count)[index]? = some inst) :
      f.inst? (start.advance index) = some inst := by
    rw [f.inst?_eq (start.advance index) found]
    rw [List.getElem?_take_of_lt early, List.getElem?_drop] at isInst
    exact isInst
  have whole : block.insts.drop start.index =
      (block.insts.drop start.index).take (block.insts.length - start.index) := by
    rw [List.take_of_length_le (Nat.le_of_eq List.length_drop)]
  cases part with
  | rest =>
      rw [FunctionBlock.rest] at isInst
      have early : index < block.insts.length - start.index := by
        have inRange := (List.getElem?_eq_some_iff.mp isInst).1
        rwa [List.length_drop] at inRange
      exact .inl ⟨early, isFunction early (whole ▸ isInst)⟩
  | handler =>
      rw [FunctionBlock.handler, List.getElem?_append, List.length_drop] at isInst
      split at isInst
      · rename_i early
        exact .inl ⟨early, isFunction early (whole ▸ isInst)⟩
      · rename_i behind
        refine .inr ⟨Nat.le_of_not_lt behind, ?_⟩
        generalize index - (block.insts.length - start.index) = offset at isInst ⊢
        rcases offset with _ | _ | offset
        · exact .inr ⟨_, (Option.some.inj isInst).symm, rfl⟩
        · exact .inl (Option.some.inj isInst).symm
        · cases isInst
  | front home behind inside check truncates =>
      rw [FunctionBlock.front, List.getElem?_append, List.length_take, List.length_drop,
        Nat.min_eq_left (Nat.sub_le_sub_right inside _)] at isInst
      split at isInst
      · rename_i early
        exact .inl ⟨early, isFunction early isInst⟩
      · rename_i behind
        rw [List.getElem?_map] at isInst
        obtain ⟨instr, isInstr, rfl⟩ := Option.map_eq_some_iff.mp isInst
        exact .inr ⟨Nat.le_of_not_lt behind, .inr ⟨instr, rfl, isInstr⟩⟩

end Shapes

end Mcfi
