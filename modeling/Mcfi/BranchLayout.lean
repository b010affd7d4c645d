import Mathlib.Data.List.Chain
import Mcfi.BranchPass

namespace Mcfi

open X86

/-!
# What the pass makes of a function

Every block behind the pass is a part of a block of the function, or belongs to the check
in front of a branch.  Blocks stand one behind the other where control runs over an end,
and the target of every branch is narrow in front of its check: below 4 GiB.
-/

section Registers

/-- The registers that an instruction of a function defines. -/
def PassInst.defs : PassInst → List Reg
  | plain instr => instr.defs
  | call instr => instr.defs
  | _ => []

/-- The registers that an instruction of a function changes besides. -/
def PassInst.clobbers : PassInst → List Reg
  | plain instr => instr.clobbers
  | call instr => instr.clobbers
  | _ => []

variable (f : MachineFunction)

/-- A branch that the pass replaces when it comes to it. -/
inductive MachineFunction.BranchAt : Place → BranchTarget → List RegUse → Prop where
  | call {place : Place} {instr : CallInstr} {target : BranchTarget}
      (found : f.inst? place = some (.call instr)) (attached : instr.irInst.isSome = true)
      (isTarget : instr.opcode.branchTarget = some target) :
      BranchAt place target instr.uses
  | exit {index : Nat} {block : FunctionBlock} {exit : ExitInstr} {target : BranchTarget}
      (found : f.blocks[index]? = some block) (isExit : block.exitInstr = some exit)
      (attached : exit.irInst.isSome = true)
      (isTarget : exit.opcode.branchTarget = some target) :
      BranchAt ⟨index, block.insts.length⟩ target exit.uses

/-- A branch, as far as the registers of its check depend on it. -/
def siteOf (target : BranchTarget) (uses : List RegUse) : BranchSite where
  target := target
  uses := uses
  block := []
  pred := none
  barySlot := 0

/-- The registers of the check in front of a branch. -/
inductive MachineFunction.CheckAt : Place → CheckRegs → Prop where
  | ret {index : Nat} {block : FunctionBlock} {exit : ExitInstr}
      (found : f.blocks[index]? = some block) (isExit : block.exitInstr = some exit)
      (isRet : exit.opcode = .retq) : CheckAt ⟨index, block.insts.length⟩ retRegs
  | branch {place : Place} {target : BranchTarget} {uses : List RegUse}
      (isBranch : f.BranchAt place target uses) :
      CheckAt place (siteOf target uses).checkRegs

/-- The instruction at a place defines a register. -/
def MachineFunction.DefinesAt (place : Place) (reg : Reg) : Prop :=
  ∃ inst, f.inst? place = some inst ∧ reg ∈ inst.defs

/-- The check in front of the call at a place takes a register, without a spill. -/
def MachineFunction.TakesAt (place : Place) (reg : Reg) : Prop :=
  ∃ instr target, f.inst? place = some (.call instr) ∧ instr.irInst.isSome = true ∧
    instr.opcode.branchTarget = some target ∧
      reg ∈ (siteOf target instr.uses).scratchRegs.take (siteOf target instr.uses).needed

/-- The instruction at a place, or its check, changes a register that it does not define. -/
def MachineFunction.ClobbersAt (place : Place) (reg : Reg) : Prop :=
  (∃ inst, f.inst? place = some inst ∧ reg ∈ inst.clobbers) ∨ f.TakesAt place reg

/-- All predecessors of a block are the same. -/
def MachineFunction.OnlyPred (pred block : Nat) : Prop :=
  ∀ index other, f.blocks[index]? = some other → block ∈ other.succs → index = pred

/-- The instruction at a place is a 64-bit load of a register. -/
def MachineFunction.LoadsAt (place : Place) (reg : Reg) : Prop :=
  ∃ src, f.inst? place = some (.plain (.mov64rm reg src))

/--
The target of a branch is not clobbered behind a load that is its last definition, in the
block of the branch or else in the only predecessor.
-/
structure MachineFunction.TargetsLive : Prop where
  block : ∀ place target uses, f.BranchAt place (.reg target) uses →
    ∀ load, f.LoadsAt ⟨place.block, load⟩ target →
      ∀ index, load < index → index < place.index →
        f.ClobbersAt ⟨place.block, index⟩ target →
          ∃ later, index < later ∧ later < place.index ∧
            f.DefinesAt ⟨place.block, later⟩ target
  pred : ∀ place target uses, f.BranchAt place (.reg target) uses →
    (∀ index < place.index, ¬ f.DefinesAt ⟨place.block, index⟩ target) →
      ∀ pred block, f.blocks[pred]? = some block → place.block ∈ block.succs →
        f.OnlyPred pred place.block → ∀ load, f.LoadsAt ⟨pred, load⟩ target →
          (∀ index, load < index → f.ClobbersAt ⟨pred, index⟩ target →
            ∃ later, index < later ∧ f.DefinesAt ⟨pred, later⟩ target) ∧
          ∀ index < place.index, ¬ f.ClobbersAt ⟨place.block, index⟩ target

end Registers

section Narrow

variable (f : MachineFunction) (loads32 : List Place)

/-- The instruction at a place is a load of a register that has become 32 bits wide. -/
def MachineFunction.Narrows (place : Place) (reg : Reg) : Prop :=
  place ∈ loads32 ∧ ∃ src, f.inst? place = some (.plain (.mov64rm reg src))

/-- The instruction at a place, if there is one, leaves a register alone. -/
def MachineFunction.LeavesAlone (place : Place) (reg : Reg) : Prop :=
  ¬ f.DefinesAt place reg ∧ ¬ f.ClobbersAt place reg

/-- A register is narrow in front of an instruction of a block, from the start on. -/
def MachineFunction.NarrowIn (block : Nat) (atStart : Reg → Prop) : Nat → Reg → Prop
  | 0, reg => atStart reg
  | index + 1, reg =>
      f.Narrows loads32 ⟨block, index⟩ reg ∨
        f.LeavesAlone ⟨block, index⟩ reg ∧ NarrowIn block atStart index reg

/-- A register is narrow in front of a block, because of the only predecessor. -/
def MachineFunction.NarrowAtStart (block : Nat) (reg : Reg) : Prop :=
  ∃ index pred, f.blocks[index]? = some pred ∧ f.OnlyPred index block ∧ block ≠ 0 ∧
    f.NarrowIn loads32 index (fun _ => False) pred.insts.length reg

/-- A register is narrow in front of an instruction. -/
def MachineFunction.NarrowAt (place : Place) (reg : Reg) : Prop :=
  f.NarrowIn loads32 place.block (f.NarrowAtStart loads32 place.block) place.index reg

variable {f loads32} {more : List Place} {block : Nat} {atStart other : Reg → Prop}
  {index : Nat} {reg : Reg}

theorem MachineFunction.Narrows.mono {place : Place} (subset : loads32 ⊆ more)
    (narrows : f.Narrows loads32 place reg) : f.Narrows more place reg :=
  ⟨subset narrows.1, narrows.2⟩

theorem MachineFunction.NarrowIn.mono (subset : loads32 ⊆ more)
    (implies : ∀ reg, atStart reg → other reg)
    (narrow : f.NarrowIn loads32 block atStart index reg) :
    f.NarrowIn more block other index reg := by
  induction index with
  | zero => exact implies reg narrow
  | succ index inductionHypothesis =>
      rcases narrow with narrows | ⟨leaves, earlier⟩
      · exact .inl (narrows.mono subset)
      · exact .inr ⟨leaves, inductionHypothesis earlier⟩

theorem MachineFunction.NarrowAt.mono {place : Place} (subset : loads32 ⊆ more)
    (narrow : f.NarrowAt loads32 place reg) : f.NarrowAt more place reg := by
  refine NarrowIn.mono subset (fun reg => ?_) narrow
  rintro ⟨index, pred, found, only, notEntry, narrowPred⟩
  exact ⟨index, pred, found, only, notEntry, narrowPred.mono subset fun _ => id⟩

/--
A register that is narrow stays so up to an instruction when every definition in between
is a 32-bit load and what clobbers it is in front of a definition.
-/
theorem MachineFunction.NarrowIn.advance {start : Nat}
    (narrow : f.NarrowIn loads32 block atStart start reg) (behind : start ≤ index)
    (defined : ∀ between, start ≤ between → between < index →
      f.Narrows loads32 ⟨block, between⟩ reg ∨ ¬ f.DefinesAt ⟨block, between⟩ reg)
    (clobbered : ∀ between, start ≤ between → between < index →
      f.ClobbersAt ⟨block, between⟩ reg →
        ∃ later, between < later ∧ later < index ∧ f.DefinesAt ⟨block, later⟩ reg) :
    f.NarrowIn loads32 block atStart index reg := by
  induction index with
  | zero => exact Nat.le_zero.mp behind ▸ narrow
  | succ index inductionHypothesis =>
      rcases Nat.eq_or_lt_of_le behind with rfl | inFront
      · exact narrow
      have reached : start ≤ index := Nat.le_of_lt_succ inFront
      rcases defined index reached (Nat.lt_succ_self index) with narrows | undefined
      · exact .inl narrows
      · have kept : ¬ f.ClobbersAt ⟨block, index⟩ reg := by
          intro clobbers
          obtain ⟨later, after, before, -⟩ :=
            clobbered index reached (Nat.lt_succ_self index) clobbers
          omega
        refine .inr ⟨⟨undefined, kept⟩, inductionHypothesis reached ?_ ?_⟩
        · exact fun between after before => defined between after (Nat.lt_succ_of_lt before)
        · intro between behind before clobbers
          obtain ⟨later, after, inFront, defines⟩ :=
            clobbered between behind (Nat.lt_succ_of_lt before) clobbers
          refine ⟨later, after, Nat.lt_of_le_of_ne (Nat.le_of_lt_succ inFront) ?_, defines⟩
          rintro rfl
          exact undefined defines

/-- A load in front of a branch makes its target narrow. -/
theorem MachineFunction.TargetsLive.narrowAt_of_load (live : f.TargetsLive) {place : Place}
    {uses : List RegUse} {load : Nat} (isBranch : f.BranchAt place (.reg reg) uses)
    (inFront : load < place.index) (narrows : f.Narrows loads32 ⟨place.block, load⟩ reg)
    (defined : ∀ between, load < between → between < place.index →
      f.Narrows loads32 ⟨place.block, between⟩ reg ∨
        ¬ f.DefinesAt ⟨place.block, between⟩ reg) :
    f.NarrowAt loads32 place reg := by
  have loaded : f.NarrowIn loads32 place.block (f.NarrowAtStart loads32 place.block)
      (load + 1) reg := .inl narrows
  exact loaded.advance inFront defined (live.block place reg uses isBranch load narrows.2)

/-- A load in the only predecessor makes the target of a branch narrow. -/
theorem MachineFunction.TargetsLive.narrowAt_of_pred (live : f.TargetsLive) {place : Place}
    {uses : List RegUse} {home load : Nat} {pred : FunctionBlock}
    (isBranch : f.BranchAt place (.reg reg) uses) (notEntry : place.block ≠ 0)
    (found : f.blocks[home]? = some pred) (isSucc : place.block ∈ pred.succs)
    (only : f.OnlyPred home place.block) (inside : load < pred.insts.length) (narrows : f.Narrows loads32 ⟨home, load⟩ reg)
    (definedPred : ∀ between, load < between → between < pred.insts.length →
      f.Narrows loads32 ⟨home, between⟩ reg ∨ ¬ f.DefinesAt ⟨home, between⟩ reg)
    (defined : ∀ between < place.index, f.Narrows loads32 ⟨place.block, between⟩ reg ∨
      ¬ f.DefinesAt ⟨place.block, between⟩ reg) :
    f.NarrowAt loads32 place reg := by
  by_cases narrowed : ∃ between < place.index, f.Narrows loads32 ⟨place.block, between⟩ reg
  · -- a load in the block that became 32 bits wide before is not seen any more
    obtain ⟨between, inFront, narrows⟩ := narrowed
    exact live.narrowAt_of_load isBranch inFront narrows fun later _ => defined later
  · have undefined : ∀ between < place.index,
        ¬ f.DefinesAt ⟨place.block, between⟩ reg := by
      intro between inFront
      rcases defined between inFront with narrows | undefined
      · exact absurd ⟨between, inFront, narrows⟩ narrowed
      · exact undefined
    obtain ⟨behindLoad, inBlock⟩ := live.pred place reg uses isBranch undefined home pred found
      isSucc only load narrows.2
    have loaded : f.NarrowIn loads32 home (fun _ => False) (load + 1) reg := .inl narrows
    have atEnd : f.NarrowIn loads32 home (fun _ => False) pred.insts.length reg := by
      refine loaded.advance inside definedPred fun between behind _ clobbers => ?_
      obtain ⟨later, after, defines⟩ := behindLoad between behind clobbers
      refine ⟨later, after, ?_, defines⟩
      obtain ⟨inst, isInst, -⟩ := defines
      rw [inst?, found] at isInst
      exact (List.getElem?_eq_some_iff.mp isInst).1
    have atStart : f.NarrowIn loads32 place.block (f.NarrowAtStart loads32 place.block)
        0 reg := ⟨home, pred, found, only, notEntry, atEnd⟩
    exact atStart.advance (Nat.zero_le _) (fun between _ => defined between)
      fun between _ before clobbers => absurd clobbers (inBlock between before)

end Narrow

section Seen

variable {f : MachineFunction} {loads32 : List Place} {place : Place} {inst : PassInst}
  {reg : Reg}

theorem PassInst.seen_load {narrowed : Bool} {src : MemOperand}
    (seen : inst.seen narrowed = .mov64rm reg src) : inst = .plain (.mov64rm reg src) := by
  cases inst with
  | plain instr =>
      cases instr with
      | mov64rm dst operand =>
          cases narrowed with
          | true => exact nomatch seen
          | false => exact congrArg PassInst.plain seen
      | other => exact nomatch seen
  | _ => exact nomatch seen

/-- What is not seen as a definition is a 32-bit load or none. -/
theorem MachineFunction.narrows_or_undefined (found : f.inst? place = some inst)
    (undefined : reg ∉ (inst.seen (decide (place ∈ loads32))).defs) :
    f.Narrows loads32 place reg ∨ ¬ f.DefinesAt place reg := by
  by_cases defines : f.DefinesAt place reg
  · left
    obtain ⟨same, isSame, defined⟩ := defines
    obtain rfl := Option.some.inj (found.symm.trans isSame)
    cases inst with
    | plain instr =>
        cases instr with
        | mov64rm dst src =>
            obtain rfl := List.mem_singleton.mp defined
            by_cases narrowed : place ∈ loads32
            · exact ⟨narrowed, src, found⟩
            · rw [decide_eq_false narrowed] at undefined
              exact absurd List.mem_cons_self undefined
        | other => exact absurd defined undefined
    | call instr => exact absurd defined undefined
    | _ => exact nomatch defined
  · exact .inr defines

theorem MachineBasicBlock.seen_getElem? (mbb : MachineBasicBlock) (index : Nat) :
    (mbb.seen loads32)[index]? =
      mbb.code[index]?.map fun inst => inst.seen (decide (mbb.place index ∈ loads32)) :=
  List.getElem?_mapIdx

theorem MachineFunction.inst?_eq (place : Place) {block : FunctionBlock}
    (found : f.blocks[place.block]? = some block) :
    f.inst? place = block.insts[place.index]? := by
  rw [inst?, found]
  rfl

end Seen

section Layout

/-- The block of the function that a block belongs to. -/
def Label.home : Label → Nat
  | part start => start.block
  | check branch _ => branch.block

/-- How the target of a check becomes narrow in front of it. -/
inductive MachineFunction.Truncates (f : MachineFunction) (loads32 : List Place)
    (branch : Place) : CheckRegs → List Instr → Prop where
  | narrowed {regs : CheckRegs} (narrow : f.NarrowAt loads32 branch regs.target) :
      Truncates f loads32 branch regs []
  | moved {regs : CheckRegs} :
      Truncates f loads32 branch regs [.mov32 regs.target regs.target]
  | loaded {regs : CheckRegs} (src : MemOperand) :
      Truncates f loads32 branch regs [.load32 regs.target src]
  | returned : Truncates f loads32 branch retRegs [.pop .rcx, .mov32 .rcx .rcx]

/-- The front of a block, up to a branch, with what comes in front of the check. -/
def FunctionBlock.front (block : FunctionBlock) (start branch : Place)
    (prepare : List Instr) : MachineBasicBlock where
  label := .part start
  code := (block.insts.drop start.index).take (branch.index - start.index) ++
    prepare.map .check
  exit := none
  falls := true
  succs := [.check branch .idCmp]

/-- The rest of a block of a signal handler, with the return replaced. -/
def FunctionBlock.handler (block : FunctionBlock) (start : Place) : MachineBasicBlock where
  label := .part start
  code := block.insts.drop start.index ++ [.check (.pop .rcx), .sigreturn]
  exit := none
  falls := false
  succs := block.labels

/-- The blocks that the pass makes of a function. -/
inductive PlacedBlock (f : MachineFunction) (moduleID : BitVec 64) (loads32 : List Place) :
    MachineBasicBlock → Prop where
  | rest {start : Place} {block : FunctionBlock}
      (found : f.blocks[start.block]? = some block)
      (inside : start.index ≤ block.insts.length) :
      PlacedBlock f moduleID loads32 (block.rest start)
  | handler {start : Place} {block : FunctionBlock}
      (found : f.blocks[start.block]? = some block)
      (inside : start.index ≤ block.insts.length) :
      PlacedBlock f moduleID loads32 (block.handler start)
  | front {start branch : Place} {block : FunctionBlock} {regs : CheckRegs}
      {truncation : List Instr} (found : f.blocks[start.block]? = some block)
      (home : branch.block = start.block) (behind : start.index ≤ branch.index)
      (inside : branch.index ≤ block.insts.length) (check : f.CheckAt branch regs)
      (truncates : f.Truncates loads32 branch regs truncation) :
      PlacedBlock f moduleID loads32 (block.front start branch (truncation ++ regs.pushes))
  | idCmp {branch : Place} {regs : CheckRegs} (barySlot : BitVec 32)
      (check : f.CheckAt branch regs) :
      PlacedBlock f moduleID loads32 (mcfiX64IDCmp branch regs moduleID barySlot)
  | icjCall {branch : Place} {instr : CallInstr} {target : BranchTarget}
      {block : FunctionBlock} {falls : Bool} {succs : List Label} (barySlot : BitVec 64)
      (found : f.blocks[branch.block]? = some block)
      (isCall : f.inst? branch = some (.call instr))
      (attached : instr.irInst.isSome = true)
      (isTarget : instr.opcode.branchTarget = some target)
      (resumes : falls = true ∧ succs = [.part (branch.advance 1)] ∨
        branch.index + 1 = block.insts.length ∧ falls = block.falls ∧ succs = block.labels) :
      PlacedBlock f moduleID loads32 (mcfiX64ICJ branch (siteOf target instr.uses).checkRegs
        (.checkedCall instr (siteOf target instr.uses).checkRegs.target barySlot) falls succs)
  | icjExit {branch : Place} {regs : CheckRegs} {opcode : ExitOpcode} {succs : List Label}
      (barySlot : BitVec 64) (check : f.CheckAt branch regs)
      (through : opcode = .jmp64r regs.target ∨ opcode = .tailJmpR64 regs.target) :
      PlacedBlock f moduleID loads32
        (mcfiX64ICJ branch regs (.checkedExit opcode barySlot) false succs)
  | interopCheck {branch : Place} {regs : CheckRegs} (check : f.CheckAt branch regs) :
      PlacedBlock f moduleID loads32 (mcfiX64InteropCheck branch regs)
  | idValidityCheck {branch : Place} {regs : CheckRegs} (check : f.CheckAt branch regs) :
      PlacedBlock f moduleID loads32 (mcfiX64IDValidityCheck branch regs)
  | verCheck {branch : Place} {regs : CheckRegs} (check : f.CheckAt branch regs) :
      PlacedBlock f moduleID loads32 (mcfiX64IDVersionCheck branch regs)
  | report {branch : Place} {regs : CheckRegs} (isReturn : Bool) :
      PlacedBlock f moduleID loads32 (mcfiX64Report branch regs isReturn)

/-- What the first of two consecutive blocks is, when control can run over its end. -/
def Adjacent (first second : MachineBasicBlock) : Prop :=
  match second.label with
  | .part ⟨block, 0⟩ => first.falls = true → .part ⟨block, 0⟩ ∈ first.succs
  | .part ⟨block, index + 1⟩ => first.label = .check ⟨block, index⟩ .icj
  | .check branch .idCmp =>
      (∃ start, first.label = .part start) ∧ first.succs = [.check branch .idCmp]
  | .check branch .icj =>
      first.label = .check branch .idCmp ∧
        ∀ slot ∈ second.code.filterMap PassInst.branchSlot,
          slot ∈ first.code.filterMap PassInst.readSlot
  | .check _ .interopCheck => first.falls = false
  | .check branch .idValidityCheck => first.label = .check branch .interopCheck
  | .check branch .verCheck => first.label = .check branch .idValidityCheck
  | .check branch .report => first.label = .check branch .verCheck

/-- The pass between two blocks, over a function. -/
structure Laid (f : MachineFunction) (moduleID : BitVec 64) (state : PassState) : Prop where
  placed : ∀ mbb ∈ state.visited ++ state.pending, PlacedBlock f moduleID state.loads32 mbb
  pending : ∀ mbb ∈ state.pending, (∃ (start : Place) (block : FunctionBlock),
    f.blocks[start.block]? = some block ∧ start.index ≤ block.insts.length ∧
      mbb = block.rest start) ∨ mbb.branches = 0
  adjacent : (state.visited ++ state.pending).IsChain Adjacent
  last : ∀ mbb ∈ (state.visited ++ state.pending).getLast?, mbb.falls = false
  holders : ∀ index block, f.blocks[index]? = some block →
    ∃ mbb ∈ state.visited ++ state.pending,
      mbb.label.home = index ∧ mbb.succs = block.labels

end Layout

section Predecessors

variable {f : MachineFunction} {moduleID : BitVec 64} {loads32 : List Place}

theorem mem_labels {block : FunctionBlock} {start : Place} (listed : .part start ∈ block.labels) :
    start.index = 0 ∧ start.block ∈ block.succs := by
  obtain ⟨index, isSucc, same⟩ := List.mem_map.mp listed
  obtain rfl := Label.part.inj same
  exact ⟨rfl, isSucc⟩

theorem mem_labels_of {block : FunctionBlock} {start : Place} (atStart : start.index = 0)
    (isSucc : start.block ∈ block.succs) : .part start ∈ block.labels := by
  obtain ⟨home, index⟩ := start
  obtain rfl : index = 0 := atStart
  exact List.mem_map.mpr ⟨home, isSucc, rfl⟩

theorem singlePred_spec {mbbs : List MachineBasicBlock} {label : Label}
    {pred : MachineBasicBlock} (single : singlePred mbbs label = some pred) :
    pred ∈ mbbs ∧ label ∈ pred.succs ∧
      ∀ mbb ∈ mbbs, label ∈ mbb.succs → mbb = pred := by
  rw [singlePred] at single
  split at single
  · rename_i only shape
    obtain rfl := Option.some.inj single
    have mem_iff : ∀ mbb, mbb ∈ [only] ↔ mbb ∈ mbbs ∧ label ∈ mbb.succs := by
      intro mbb
      rw [← shape, List.mem_flatMap]
      constructor
      · rintro ⟨other, listed, mapped⟩
        obtain ⟨succ, filtered, rfl⟩ := List.mem_map.mp mapped
        obtain ⟨isSucc, same⟩ := List.mem_filter.mp filtered
        exact ⟨listed, of_decide_eq_true same ▸ isSucc⟩
      · rintro ⟨listed, isSucc⟩
        refine ⟨mbb, listed, List.mem_map.mpr ⟨label, ?_, rfl⟩⟩
        refine List.mem_filter.mpr ⟨isSucc, ?_⟩
        exact decide_eq_true rfl
    have here := (mem_iff only).mp List.mem_cons_self
    refine ⟨here.1, here.2, fun mbb listed isSucc => ?_⟩
    exact List.mem_singleton.mp ((mem_iff mbb).mpr ⟨listed, isSucc⟩)
  · exact nomatch single

/-- A load is seen in a part of the function only, and in front of a successor. -/
theorem PlacedBlock.pred_of_load {pred : MachineBasicBlock} {start : Place} {index : Nat}
    {reg : Reg} {src : MemOperand} (placed : PlacedBlock f moduleID loads32 pred)
    (isSucc : .part start ∈ pred.succs)
    (seen : (pred.seen loads32)[index]? = some (.mov64rm reg src)) :
    ∃ first block extra, f.blocks[first.block]? = some block ∧ pred.label = .part first ∧
      start.index = 0 ∧ start.block ∈ block.succs ∧
      pred.code = block.insts.drop first.index ++ extra ∧
      first.index + index < block.insts.length := by
  rw [MachineBasicBlock.seen_getElem?] at seen
  obtain ⟨inst, isInst, isLoad⟩ := Option.map_eq_some_iff.mp seen
  obtain rfl := PassInst.seen_load isLoad
  cases placed with
  | @rest first block found inside =>
      obtain ⟨atStart, inSuccs⟩ := mem_labels isSucc
      have inRange := (List.getElem?_eq_some_iff.mp isInst).1
      simp only [FunctionBlock.rest, List.length_drop] at inRange
      exact ⟨first, block, [], found, rfl, atStart, inSuccs, (List.append_nil _).symm,
        by omega⟩
  | @handler first block found inside =>
      obtain ⟨atStart, inSuccs⟩ := mem_labels isSucc
      refine ⟨first, block, _, found, rfl, atStart, inSuccs, rfl, ?_⟩
      by_contra outside
      have behind : (block.insts.drop first.index).length ≤ index := by
        rw [List.length_drop]
        omega
      rw [FunctionBlock.handler, List.getElem?_append_right behind] at isInst
      have added := List.mem_of_getElem? isInst
      simp at added
  | front => exact absurd (List.mem_singleton.mp isSucc) nofun
  | icjCall =>
      rcases List.mem_append.mp (List.mem_of_getElem? isInst) with reload | last
      · obtain ⟨instr, -, never⟩ := List.mem_map.mp reload
        exact nomatch never
      · exact nomatch List.mem_singleton.mp last
  | icjExit =>
      rcases List.mem_append.mp (List.mem_of_getElem? isInst) with reload | last
      · obtain ⟨instr, -, never⟩ := List.mem_map.mp reload
        exact nomatch never
      · exact nomatch List.mem_singleton.mp last
  | idCmp => simp [mcfiX64IDCmp] at isSucc
  | interopCheck => simp [mcfiX64InteropCheck] at isSucc
  | idValidityCheck => simp [mcfiX64IDValidityCheck] at isSucc
  | verCheck => simp [mcfiX64IDVersionCheck] at isSucc
  | report => exact nomatch isSucc

end Predecessors

section Truncation

theorem targetLoad_getElem? {site : BranchSite} {before between : List MachineInstr}
    {src : MemOperand} (replaced : site.targetLoad = some (before, src, between)) :
    site.code[before.length]? = some (.mov64rm site.checkRegs.target src) ∧
      ∀ index instr, before.length < index → site.code[index]? = some instr →
        site.checkRegs.target ∉ instr.defs := by
  obtain ⟨-, shape, undefined⟩ := targetLoad_spec replaced
  rw [shape]
  refine ⟨by simp, fun index instr behind isInstr => undefined instr ?_⟩
  rw [List.getElem?_append_right (Nat.le_of_lt behind)] at isInstr
  obtain ⟨offset, isOffset⟩ : ∃ offset, index - before.length = offset + 1 :=
    ⟨index - before.length - 1, by omega⟩
  rw [isOffset, List.getElem?_cons_succ] at isInstr
  exact List.mem_of_getElem? isInstr

/-- A branch in the rest of a block. -/
structure RestBranch (f : MachineFunction) (block : FunctionBlock) (start : Place)
    (front : List PassInst) (next : Option MachineBasicBlock) (target : BranchTarget)
    (uses : List RegUse) : Prop where
  found : f.blocks[start.block]? = some block
  inside : start.index + front.length ≤ block.insts.length
  isFront : front = (block.insts.drop start.index).take front.length
  isBranch : f.BranchAt (start.advance front.length) target uses
  isNext : next = none ∧
      (block.insts.drop start.index).take (front.length + 1) = block.insts.drop start.index ∨
    next = some (block.rest (start.advance (front.length + 1))) ∧
      start.index + front.length + 1 ≤ block.insts.length

variable {f : MachineFunction} {moduleID : BitVec 64} {block : FunctionBlock}
  {start : Place} {front : List PassInst} {next : Option MachineBasicBlock}
  {target : BranchTarget} {uses : List RegUse} {cj : Reg → BitVec 64 → PassInst}

/-- A call stands where the code in front of it ends. -/
theorem FunctionBlock.call_at {behind : List PassInst} {instr : CallInstr}
    (found : f.blocks[start.block]? = some block)
    (code : block.insts.drop start.index = front ++ .call instr :: behind) :
    start.index + front.length < block.insts.length ∧
      front = (block.insts.drop start.index).take front.length ∧
      f.inst? (start.advance front.length) = some (.call instr) ∧
      block.insts.drop (start.index + front.length + 1) = behind := by
  have lengths := congrArg List.length code
  simp only [List.length_drop, List.length_append, List.length_cons] at lengths
  have isCall : block.insts[start.index + front.length]? = some (.call instr) := by
    rw [← List.getElem?_drop, code]
    simp
  refine ⟨by omega, by rw [code, List.take_left], ?_, ?_⟩
  · rw [MachineFunction.inst?_eq (start.advance front.length) found]
    exact isCall
  · rw [Nat.add_assoc, ← List.drop_drop, code, ← List.drop_drop, List.drop_left]
    rfl

theorem Replaces.restBranch (replaces : Replaces (block.rest start) front next target uses cj)
    (found : f.blocks[start.block]? = some block) (inside : start.index ≤ block.insts.length) :
    RestBranch f block start front next target uses := by
  cases replaces with
  | lastCall code noExit attached isTarget =>
      obtain ⟨inRange, isFront, isCall, -⟩ := FunctionBlock.call_at found code
      refine ⟨found, Nat.le_of_lt inRange, isFront, .call isCall attached isTarget,
        .inl ⟨rfl, ?_⟩⟩
      apply List.take_of_length_le
      have code : block.insts.drop start.index = _ := code
      rw [code]
      simp
  | call code attached isTarget =>
      obtain ⟨inRange, isFront, isCall, behind⟩ := FunctionBlock.call_at found code
      refine ⟨found, Nat.le_of_lt inRange, isFront, .call isCall attached isTarget,
        .inr ⟨?_, inRange⟩⟩
      rw [← behind]
      rfl
  | exit isExit attached isTarget =>
      have length : (block.rest start).code.length = block.insts.length - start.index :=
        List.length_drop
      have atEnd : start.index + (block.rest start).code.length = block.insts.length := by
        omega
      have isPlace : start.advance (block.rest start).code.length =
          ⟨start.block, block.insts.length⟩ := congrArg (Place.mk start.block) atEnd
      refine ⟨found, Nat.le_of_eq atEnd, (List.take_length ..).symm, ?_, .inl ⟨rfl, ?_⟩⟩
      · rw [isPlace]
        exact .exit found isExit attached isTarget
      · exact List.take_of_length_le (Nat.le_succ _)

section Sites

variable (state : PassState) (rest : List MachineBasicBlock)

/-- The instructions in front of a branch, as they are seen. -/
theorem RestBranch.site_block (branch : RestBranch f block start front next target uses)
    {index : Nat} (inFront : index < front.length) :
    ∃ inst, f.inst? (start.advance index) = some inst ∧
      (state.branchSite (block.rest start) front next rest target uses).1.block[index]? =
        some (inst.seen (decide (start.advance index ∈ state.loads32))) := by
  have inRange : start.index + index < block.insts.length := by
    have inside := branch.inside
    omega
  refine ⟨block.insts[start.index + index], ?_, ?_⟩
  · rw [MachineFunction.inst?_eq (start.advance index) branch.found]
    exact List.getElem?_eq_getElem inRange
  · have isInst : ((block.insts.drop start.index).take (front.length + 1))[index]? =
        some block.insts[start.index + index] := by
      rw [List.getElem?_take_of_lt (by omega), List.getElem?_drop]
      exact List.getElem?_eq_getElem inRange
    simp only [PassState.branchSite]
    rw [List.getElem?_take_of_lt inFront, MachineBasicBlock.seen_getElem?]
    exact congrArg (Option.map _) isInst

theorem RestBranch.site_block_length
    (branch : RestBranch f block start front next target uses) :
    (state.branchSite (block.rest start) front next rest target uses).1.block.length =
      front.length := by
  have inside := branch.inside
  simp only [PassState.branchSite, MachineBasicBlock.seen, FunctionBlock.rest,
    List.length_take, List.length_mapIdx, List.length_drop]
  omega

variable {state rest}

/-- The only predecessor that is found, with all that go on to the block. -/
theorem RestBranch.pred_spec (branch : RestBranch f block start front next target uses)
    (laid : Laid f moduleID state) (pending : state.pending = block.rest start :: rest)
    {pred : MachineBasicBlock}
    (isPred : (state.branchSite (block.rest start) front next rest target uses).2 = some pred) :
    PlacedBlock f moduleID state.loads32 pred ∧ .part start ∈ pred.succs ∧
      (start.index = 0 → f.OnlyPred pred.label.home start.block) := by
  obtain ⟨listed, isSucc, unique⟩ := singlePred_spec isPred
  have placed : ∀ mbb ∈ state.visited ++ block.rest start :: rest,
      PlacedBlock f moduleID state.loads32 mbb := pending ▸ laid.placed
  have here := placed _ (List.mem_append_right _ List.mem_cons_self)
  rcases branch.isNext with ⟨rfl, whole⟩ | ⟨rfl, inRange⟩
  · -- the block has its successors still
    have same : { block.rest start with
        code := (block.rest start).code.take (front.length + 1)
        succs := (block.rest start).succsBehind none } = block.rest start :=
      congrArg (fun code => { block.rest start with code }) whole
    simp only [Option.toList_none, List.nil_append, same] at listed unique
    refine ⟨placed _ listed, isSucc, fun atStart index other found isOther => ?_⟩
    obtain ⟨mbb, isHolder, home, succs⟩ := laid.holders index other found
    rw [pending] at isHolder
    have holds : .part start ∈ mbb.succs := succs ▸ mem_labels_of atStart isOther
    rw [← home, unique mbb isHolder holds]
  · -- the block behind the call has them
    simp only [Option.toList_some, List.singleton_append] at listed unique
    have isRest : PlacedBlock f moduleID state.loads32
        (block.rest (start.advance (front.length + 1))) :=
      @PlacedBlock.rest f moduleID state.loads32 (start.advance (front.length + 1)) block
        branch.found inRange
    refine ⟨?_, isSucc, fun atStart index other found isOther => ?_⟩
    · rcases List.mem_append.mp listed with isVisited | behind
      · exact placed _ (List.mem_append_left _ isVisited)
      rcases List.mem_cons.mp behind with rfl | behind
      · have never := Label.part.inj (List.mem_singleton.mp isSucc)
        have never := congrArg Place.index never
        simp only [Place.advance] at never
        omega
      rcases List.mem_cons.mp behind with rfl | behind
      · exact isRest
      · exact placed _ (List.mem_append_right _ (List.mem_cons_of_mem _ behind))
    · obtain ⟨mbb, isHolder, home, succs⟩ := laid.holders index other found
      rw [pending] at isHolder
      have holds : .part start ∈ mbb.succs := succs ▸ mem_labels_of atStart isOther
      rcases List.mem_append.mp isHolder with isVisited | behind
      · rw [← home, unique mbb (List.mem_append_left _ isVisited) holds]
      rcases List.mem_cons.mp behind with rfl | behind
      · rw [← home, ← unique (block.rest (start.advance (front.length + 1))) (by simp) holds]
        rfl
      · rw [← home, unique mbb (by simp [behind]) holds]

variable (state rest) in
/-- A definition that is not seen in front of a branch is none, or a 32-bit load. -/
theorem RestBranch.undefined (branch : RestBranch f block start front next target uses)
    {index : Nat} {reg : Reg} (inFront : index < front.length)
    (undefined : ∀ instr,
      (state.branchSite (block.rest start) front next rest target uses).1.block[index]? =
        some instr → reg ∉ instr.defs) :
    f.Narrows state.loads32 (start.advance index) reg ∨
      ¬ f.DefinesAt (start.advance index) reg := by
  obtain ⟨inst, isInst, isSeen⟩ :=
    branch.site_block state rest inFront
  exact f.narrows_or_undefined isInst (undefined _ isSeen)

private theorem RestBranch.narrowAt_of_block_load
    (branch : RestBranch f block start front next target uses) (live : f.TargetsLive)
    {index : Nat} {reg : Reg} {src : MemOperand} (isTarget : target = .reg reg)
    (isLoad : (state.branchSite (block.rest start) front next rest target
      uses).1.block[index]? = some (.mov64rm reg src))
    (undefined : ∀ later (instr : MachineInstr), index < later →
      (state.branchSite (block.rest start) front next rest target uses).1.block[later]? =
        some instr → reg ∉ instr.defs) :
    f.NarrowAt (start.advance index :: state.loads32) (start.advance front.length) reg := by
  have inFront : index < front.length := by
    rw [← branch.site_block_length state rest]
    exact (List.getElem?_eq_some_iff.mp isLoad).1
  obtain ⟨inst, isInst, isSeen⟩ := branch.site_block state rest inFront
  obtain rfl := PassInst.seen_load (Option.some.inj (isSeen.symm.trans isLoad))
  have isBranch : f.BranchAt (start.advance front.length) (.reg reg) uses :=
    isTarget ▸ branch.isBranch
  have before : start.index + index < (start.advance front.length).index :=
    Nat.add_lt_add_left inFront _
  refine live.narrowAt_of_load isBranch before ⟨List.mem_cons_self, src, isInst⟩
    fun between after before => ?_
  obtain ⟨offset, rfl⟩ : ∃ offset, between = start.index + offset :=
    ⟨between - start.index, by omega⟩
  have early : offset < front.length := Nat.lt_of_add_lt_add_left before
  rcases branch.undefined state rest early
    (undefined offset · (Nat.lt_of_add_lt_add_left after)) with narrows | none
  · exact .inl (narrows.mono (List.subset_cons_self _ _))
  · exact .inr none

private theorem RestBranch.narrowAt_of_pred_load
    (branch : RestBranch f block start front next target uses) (live : f.TargetsLive)
    (laid : Laid f moduleID state) (pending : state.pending = block.rest start :: rest)
    {index : Nat} {reg : Reg} {src : MemOperand} {pred : MachineBasicBlock}
    (isTarget : target = .reg reg)
    (isPred : (state.branchSite (block.rest start) front next rest target uses).2 = some pred)
    (isLoad : (pred.seen state.loads32)[index]? = some (.mov64rm reg src))
    (undefinedPred : ∀ later (instr : MachineInstr), index < later →
      (pred.seen state.loads32)[later]? = some instr → reg ∉ instr.defs)
    (undefined : ∀ (index : Nat) (instr : MachineInstr),
      (state.branchSite (block.rest start) front next rest target uses).1.block[index]? =
        some instr → reg ∉ instr.defs) :
    f.NarrowAt (pred.place index :: state.loads32) (start.advance front.length) reg := by
  obtain ⟨placed, isSucc, only⟩ := branch.pred_spec laid pending isPred
  obtain ⟨first, predBlock, extra, found, label, atStart, inSuccs, code, inRange⟩ :=
    placed.pred_of_load isSucc isLoad
  have home : pred.label.home = first.block := by
    rw [label]
    rfl
  have place (offset : Nat) : pred.place offset = first.advance offset := by
    rw [MachineBasicBlock.place, label]
  have isInst {offset : Nat} (inside : first.index + offset < predBlock.insts.length) :
      f.inst? (first.advance offset) = some predBlock.insts[first.index + offset] ∧
        (pred.seen state.loads32)[offset]? =
          some (predBlock.insts[first.index + offset].seen
            (decide (first.advance offset ∈ state.loads32))) := by
    have inDrop : offset < (predBlock.insts.drop first.index).length := by
      rw [List.length_drop]
      omega
    constructor
    · rw [MachineFunction.inst?_eq (first.advance offset) found]
      exact List.getElem?_eq_getElem inside
    · rw [MachineBasicBlock.seen_getElem?, code, List.getElem?_append_left inDrop,
        List.getElem?_drop, List.getElem?_eq_getElem inside, place]
      rfl
  obtain ⟨isPlain, isSeen⟩ := isInst inRange
  have isLoadInst := PassInst.seen_load (Option.some.inj (isSeen.symm.trans isLoad))
  have notEntry : start.block ≠ 0 := fun entry =>
    f.entry predBlock (List.mem_of_getElem? found) (entry ▸ inSuccs)
  rw [place]
  have isBranch : f.BranchAt (start.advance front.length) (.reg reg) uses :=
    isTarget ▸ branch.isBranch
  refine live.narrowAt_of_pred isBranch notEntry found inSuccs (home ▸ only atStart) inRange
    ⟨List.mem_cons_self, src, isPlain.trans (congrArg some isLoadInst)⟩ ?_ ?_
  · intro between after before
    obtain ⟨offset, rfl⟩ : ∃ offset, between = first.index + offset :=
      ⟨between - first.index, by omega⟩
    obtain ⟨isOther, isSeen⟩ := isInst before
    rcases f.narrows_or_undefined isOther
      (undefinedPred offset _ (Nat.lt_of_add_lt_add_left after) isSeen) with narrows | none
    · exact .inl (narrows.mono (List.subset_cons_self _ _))
    · exact .inr none
  · intro between before
    have early : between < front.length := by
      simpa only [Place.advance, atStart, Nat.zero_add] using before
    have same : start.advance between = ⟨start.block, between⟩ := by
      rw [Place.advance, atStart, Nat.zero_add]
    rcases branch.undefined state rest early (undefined between)
      with narrows | none
    · exact .inl (same ▸ narrows.mono (List.subset_cons_self _ _))
    · exact .inr (same ▸ none)

/-- The target of a branch is narrow behind what comes in front of the check. -/
theorem RestBranch.truncates (branch : RestBranch f block start front next target uses)
    (live : f.TargetsLive) (laid : Laid f moduleID state)
    (pending : state.pending = block.rest start :: rest) :
    f.Truncates ((PassState.narrowedLoad (block.rest start)
        (state.branchSite (block.rest start) front next rest target uses)).toList ++
          state.loads32) (start.advance front.length) (siteOf target uses).checkRegs
      (state.branchSite (block.rest start) front next rest target uses).1.truncation := by
  have regsTarget : ∀ reg, target = .reg reg → (siteOf target uses).checkRegs.target = reg := by
    rintro reg rfl
    exact chooseIDRegs_target _ _
  have isPred : (state.branchSite (block.rest start) front next rest target uses).1.pred =
      (state.branchSite (block.rest start) front next rest target uses).2.map
        fun pred => ⟨pred.seen state.loads32, []⟩ := rfl
  have inBlock := fun index reg src =>
    @RestBranch.narrowAt_of_block_load f block start front next target uses state rest
      branch live index reg src
  have inPred := fun index reg src pred =>
    @RestBranch.narrowAt_of_pred_load f moduleID block start front next target uses state
      rest branch live laid pending index reg src pred
  have sameTarget : (state.branchSite (block.rest start) front next rest target
    uses).1.target = target := rfl
  have sameRegs : (state.branchSite (block.rest start) front next rest target
    uses).1.checkRegs = (siteOf target uses).checkRegs := rfl
  generalize state.branchSite (block.rest start) front next rest target uses = site at *
  obtain ⟨site, pred⟩ := site
  simp only at isPred inBlock inPred sameTarget sameRegs ⊢
  cases isTarget : target with
  | mem operand =>
      have code : site.truncation = [.load32 site.checkRegs.target operand] := by
        rw [BranchSite.truncation, sameTarget, isTarget]
      rw [code, sameRegs, isTarget]
      exact .loaded operand
  | reg reg =>
      have isReg := regsTarget reg isTarget
      rw [isTarget] at isReg
      cases replaced : site.targetLoad with
      | none =>
          have code : site.truncation = [.mov32 reg reg] := by
            rw [BranchSite.truncation, sameTarget, isTarget, replaced]
          have moved : f.Truncates ((PassState.narrowedLoad (block.rest start)
              (site, pred)).toList ++ state.loads32) (start.advance front.length)
              (siteOf (.reg reg) uses).checkRegs _ := .moved
          rw [isReg] at moved
          exact code ▸ moved
      | some parts =>
          obtain ⟨before, src, between⟩ := parts
          have code : site.truncation = [] := by
            rw [BranchSite.truncation, sameTarget, isTarget, replaced]
          obtain ⟨isLoad, undefined⟩ := targetLoad_getElem? replaced
          rw [sameRegs, isTarget, isReg] at isLoad undefined
          rw [code]
          refine .narrowed ?_
          rw [isReg, PassState.narrowedLoad, replaced]
          simp only
          rw [BranchSite.code] at isLoad undefined
          by_cases early : before.length < site.predCode.length
          · rw [if_pos early]
            rw [List.getElem?_append_left early] at isLoad
            cases isSome : pred with
            | none =>
                rw [BranchSite.predCode, isPred, isSome] at early
                cases early
            | some pred =>
                have isCode : site.predCode = pred.seen state.loads32 := by
                  rw [BranchSite.predCode, isPred, isSome]
                  rfl
                rw [isCode] at isLoad undefined early
                refine inPred _ reg src pred isTarget isSome isLoad ?_ ?_
                · intro later instr after isInstr
                  refine undefined later instr after ?_
                  rw [List.getElem?_append_left (List.getElem?_eq_some_iff.mp isInstr).1]
                  exact isInstr
                · intro index instr isInstr
                  refine undefined ((pred.seen state.loads32).length + index) instr
                    (Nat.lt_add_right _ early) ?_
                  rw [List.getElem?_append_right (Nat.le_add_right _ _), Nat.add_sub_cancel_left]
                  exact isInstr
          · rw [if_neg early]
            have behind := Nat.le_of_not_lt early
            rw [List.getElem?_append_right behind] at isLoad
            refine inBlock _ reg src isTarget isLoad fun later instr after isInstr => ?_
            refine undefined (site.predCode.length + later) instr (by omega) ?_
            rw [List.getElem?_append_right (Nat.le_add_right _ _), Nat.add_sub_cancel_left]
            exact isInstr

end Sites

end Truncation

section Insertion

/-- Put elements in the place of one, where the neighbours do not mind. -/
theorem isChain_replace {α : Type} {related : α → α → Prop} {before inserted after : List α}
    {old new : α} (chain : (before ++ old :: after).IsChain related)
    (enters : ∀ first, related first old → related first new)
    (within : (new :: inserted).IsChain related)
    (leaves : ∀ last ∈ (new :: inserted).getLast?, ∀ second,
      related old second → related last second) :
    (before ++ (new :: inserted ++ after)).IsChain related := by
  obtain ⟨front, back, joint⟩ := List.isChain_append.mp chain
  obtain ⟨next, rest⟩ := List.isChain_cons.mp back
  refine front.append (within.append rest fun last isLast second isSecond => ?_) ?_
  · exact leaves last isLast second (next second isSecond)
  · intro last isLast first isFirst
    obtain rfl := Option.some.inj isFirst
    exact enters last (joint last isLast _ rfl)

/-- The last element, when elements are put in the place of one. -/
theorem getLast?_replace {α : Type} {good : α → Prop} {before inserted after : List α}
    {old new : α} (last : ∀ item ∈ (before ++ old :: after).getLast?, good item)
    (leaves : good old → ∀ item ∈ (new :: inserted).getLast?, good item) :
    ∀ item ∈ (before ++ (new :: inserted ++ after)).getLast?, good item := by
  intro item isLast
  cases after with
  | nil =>
      have isOld : good old := last old (by simp)
      rw [List.append_nil, List.getLast?_append_of_ne_nil _ (List.cons_ne_nil _ _)] at isLast
      exact leaves isOld item isLast
  | cons second rest =>
      refine last item ?_
      rw [← List.append_assoc, List.getLast?_append_of_ne_nil _ (List.cons_ne_nil _ _)] at isLast
      rw [List.append_cons, List.getLast?_append_of_ne_nil _ (List.cons_ne_nil _ _)]
      exact isLast

variable {f : MachineFunction} {moduleID : BitVec 64} {loads32 more : List Place}

theorem MachineFunction.Truncates.mono {branch : Place} {regs : CheckRegs}
    {truncation : List Instr} (subset : loads32 ⊆ more)
    (truncates : f.Truncates loads32 branch regs truncation) :
    f.Truncates more branch regs truncation := by
  cases truncates with
  | narrowed narrow => exact .narrowed (narrow.mono subset)
  | moved => exact .moved
  | loaded src => exact .loaded src
  | returned => exact .returned

theorem PlacedBlock.mono {mbb : MachineBasicBlock} (subset : loads32 ⊆ more)
    (placed : PlacedBlock f moduleID loads32 mbb) : PlacedBlock f moduleID more mbb := by
  cases placed with
  | rest found inside => exact .rest found inside
  | handler found inside => exact .handler found inside
  | front found home behind inside check truncates =>
      exact .front found home behind inside check (truncates.mono subset)
  | idCmp barySlot check => exact .idCmp barySlot check
  | icjCall barySlot found isCall attached isTarget resumes =>
      exact .icjCall barySlot found isCall attached isTarget resumes
  | icjExit barySlot check through => exact .icjExit barySlot check through
  | interopCheck check => exact .interopCheck check
  | idValidityCheck check => exact .idValidityCheck check
  | verCheck check => exact .verCheck check
  | report isReturn => exact .report isReturn

/-- What is behind a part of the function is behind a block that goes on as it does. -/
theorem Adjacent.resume {block : FunctionBlock} {start : Place} {mbb second : MachineBasicBlock}
    (falls : mbb.falls = block.falls) (succs : mbb.succs = block.labels)
    (adjacent : Adjacent (block.rest start) second) : Adjacent mbb second := by
  rw [Adjacent] at adjacent ⊢
  split at adjacent
  · rw [falls, succs]
    exact adjacent
  · exact nomatch adjacent
  · rename_i branch _
    have listed : .check branch .idCmp ∈ block.labels := by
      rw [show block.labels = _ from adjacent.2]
      exact List.mem_cons_self
    obtain ⟨_, -, never⟩ := List.mem_map.mp listed
    exact nomatch never
  · exact nomatch adjacent.1
  · exact falls.trans adjacent
  · exact nomatch adjacent
  · exact nomatch adjacent
  · exact nomatch adjacent

/-- A part of the function is entered as one that starts at the same place. -/
theorem Adjacent.enter {first mbb other : MachineBasicBlock} {start : Place}
    (isPart : mbb.label = .part start) (same : other.label = .part start)
    (adjacent : Adjacent first mbb) : Adjacent first other := by
  rw [Adjacent, isPart] at adjacent
  rw [Adjacent, same]
  obtain ⟨home, index⟩ := start
  cases index <;> exact adjacent

theorem mcfiX64ICJ_branchSlots {branch : Place} {regs : CheckRegs} {cj : PassInst} {falls : Bool}
    {succs : List Label} {barySlot : BitVec 64} (isCj : cj.branchSlot = some barySlot) :
    (mcfiX64ICJ branch regs cj falls succs).code.filterMap PassInst.branchSlot = [barySlot] := by
  have reloads : (regs.pops.map PassInst.check).filterMap PassInst.branchSlot = [] := by
    rw [List.filterMap_eq_nil_iff]
    intro inst listed
    obtain ⟨instr, -, rfl⟩ := List.mem_map.mp listed
    rfl
  simp only [mcfiX64ICJ, List.filterMap_append, reloads, List.nil_append]
  rw [List.filterMap_cons_some isCj]
  rfl

section

variable {state : PassState} {block : FunctionBlock} {start : Place} {front : List PassInst}
  {next : Option MachineBasicBlock} {rest : List MachineBasicBlock} {regs : CheckRegs}
  {truncation : List Instr} {cj : PassInst}

/-- The blocks that stand where one stood. -/
def checkedBlocks (moduleID : BitVec 64) (barySlot : BitVec 32) (block : FunctionBlock)
    (start branch : Place) (next : Option MachineBasicBlock) (regs : CheckRegs)
    (truncation : List Instr) (cj : PassInst) : List MachineBasicBlock :=
  block.front start branch (truncation ++ regs.pushes) ::
    mcfiX64IDCmp branch regs moduleID barySlot ::
    mcfiX64ICJ branch regs cj ((block.rest start).fallsBehind next)
      ((block.rest start).succsBehind next) :: next.toList

theorem insertCheck_blocks (moduleID : BitVec 64) (state : PassState)
    (next : Option MachineBasicBlock) (rest : List MachineBasicBlock) (regs : CheckRegs)
    (truncation : List Instr) (cj : PassInst) (isReturn : Bool)
    (isFront : front = (block.insts.drop start.index).take front.length) :
    (state.insertCheck moduleID (block.rest start) front next rest
        (start.advance front.length) regs truncation cj isReturn).visited ++
      (state.insertCheck moduleID (block.rest start) front next rest
        (start.advance front.length) regs truncation cj isReturn).pending =
      state.visited ++ (checkedBlocks moduleID state.barySlot block start
        (start.advance front.length) next regs truncation cj ++ rest) ++
          tailBlocks (start.advance front.length) regs isReturn := by
  have isBefore : block.front start (start.advance front.length)
      (truncation ++ regs.pushes) = {
        label := .part start
        code := front ++ (truncation ++ regs.pushes).map .check
        exit := none
        falls := true
        succs := [.check (start.advance front.length) .idCmp] } := by
    simp only [FunctionBlock.front, Place.advance, Nat.add_sub_cancel_left, ← isFront]
  simp only [checkedBlocks, isBefore, PassState.insertCheck, List.append_assoc,
    List.cons_append, List.nil_append]
  rfl

/-- The block that begins behind a branch is what is left of the block, if any. -/
def NextBlock (block : FunctionBlock) (start : Place) (length : Nat)
    (next : Option MachineBasicBlock) : Prop :=
  next = none ∨ next = some (block.rest (start.advance (length + 1))) ∧
    start.index + length + 1 ≤ block.insts.length

theorem checkedBlocks_chain (regs : CheckRegs) (truncation : List Instr) {branch : Place}
    {barySlot : BitVec 32} {length : Nat} (isBranch : branch = start.advance length)
    (isNext : NextBlock block start length next)
    (isCj : cj.branchSlot = some (slotNumber moduleID barySlot)) :
    (checkedBlocks moduleID barySlot block start branch next regs truncation cj).IsChain
      Adjacent := by
  have first : Adjacent (block.front start branch (truncation ++ regs.pushes))
      (mcfiX64IDCmp branch regs moduleID barySlot) := ⟨⟨start, rfl⟩, by rw [isBranch]; rfl⟩
  have second : Adjacent (mcfiX64IDCmp branch regs moduleID barySlot)
      (mcfiX64ICJ branch regs cj ((block.rest start).fallsBehind next)
        ((block.rest start).succsBehind next)) := by
    refine ⟨rfl, fun slot listed => ?_⟩
    rw [mcfiX64ICJ_branchSlots isCj] at listed
    exact listed
  rcases isNext with rfl | ⟨rfl, -⟩
  · exact .cons_cons first (.cons_cons second (.singleton _))
  · exact .cons_cons first (.cons_cons second (.cons_cons (isBranch ▸ rfl) (.singleton _)))

/-- The last of them goes on as the block did. -/
theorem checkedBlocks_last (moduleID : BitVec 64) (branch : Place) (barySlot : BitVec 32)
    (regs : CheckRegs) (truncation : List Instr) (cj : PassInst) {length : Nat}
    {last : MachineBasicBlock} (isNext : NextBlock block start length next)
    (isLast : last ∈ (checkedBlocks moduleID barySlot block start branch next regs truncation
      cj).getLast?) :
    last.falls = block.falls ∧ last.succs = block.labels := by
  rcases isNext with rfl | ⟨rfl, -⟩
  · obtain rfl := Option.some.inj isLast
    exact ⟨rfl, rfl⟩
  · obtain rfl := Option.some.inj isLast
    exact ⟨rfl, rfl⟩

/-- A check that is inserted in front of a branch keeps the layout. -/
theorem Laid.insertCheck (isReturn : Bool) (laid : Laid f moduleID state)
    (pending : state.pending = block.rest start :: rest)
    (found : f.blocks[start.block]? = some block)
    (inside : start.index + front.length ≤ block.insts.length)
    (isFront : front = (block.insts.drop start.index).take front.length)
    (isNext : NextBlock block start front.length next) (subset : state.loads32 ⊆ more)
    (check : f.CheckAt (start.advance front.length) regs)
    (truncates : f.Truncates more (start.advance front.length) regs truncation)
    (isCj : cj.branchSlot = some (slotNumber moduleID state.barySlot))
    (icjPlaced : PlacedBlock f moduleID more (mcfiX64ICJ (start.advance front.length) regs cj
      ((block.rest start).fallsBehind next) ((block.rest start).succsBehind next))) :
    Laid f moduleID {
      state.insertCheck moduleID (block.rest start) front next rest
        (start.advance front.length) regs truncation cj isReturn with loads32 := more } := by
  have blocks := insertCheck_blocks moduleID state next rest regs truncation cj isReturn
    isFront
  have old : ∀ mbb ∈ state.visited ++ block.rest start :: rest,
      PlacedBlock f moduleID more mbb := fun mbb listed =>
    (laid.placed mbb (pending ▸ listed)).mono subset
  have nextRest : ∀ mbb ∈ next.toList,
      ∃ (start : Place) (block : FunctionBlock), f.blocks[start.block]? = some block ∧
        start.index ≤ block.insts.length ∧ mbb = block.rest start := by
    intro mbb listed
    rcases isNext with rfl | ⟨rfl, inRange⟩
    · cases listed
    · obtain rfl := List.mem_singleton.mp listed
      exact ⟨start.advance (front.length + 1), block, found, inRange, rfl⟩
  have adjacent := laid.adjacent
  have lastFalls := laid.last
  rw [pending] at adjacent lastFalls
  have replaced := isChain_replace adjacent (fun first => Adjacent.enter rfl rfl)
    (checkedBlocks_chain regs truncation rfl isNext isCj)
    fun last isLast second =>
      Adjacent.resume (checkedBlocks_last _ _ _ _ _ _ isNext isLast).1
        (checkedBlocks_last _ _ _ _ _ _ isNext isLast).2
  have stops := getLast?_replace lastFalls fun stops last isLast =>
    (checkedBlocks_last moduleID (start.advance front.length) state.barySlot regs truncation
      cj isNext isLast).1.trans stops
  refine ⟨fun mbb listed => ?_, fun mbb listed => ?_, ?_, ?_, fun index other isOther => ?_⟩
  · rw [blocks] at listed
    rcases List.mem_append.mp listed with listed | isTail
    · rcases List.mem_append.mp listed with isVisited | listed
      · exact old mbb (List.mem_append_left _ isVisited)
      rcases List.mem_append.mp listed with isNew | isRest
      · simp only [checkedBlocks, List.mem_cons] at isNew
        rcases isNew with rfl | rfl | rfl | listed
        · exact .front found rfl (Nat.le_add_right _ _) inside check truncates
        · exact .idCmp _ check
        · exact icjPlaced
        · obtain ⟨start, block, found, inside, rfl⟩ := nextRest mbb listed
          exact .rest found inside
      · exact old mbb (List.mem_append_right _ (List.mem_cons_of_mem _ isRest))
    · simp only [tailBlocks, List.mem_cons, List.not_mem_nil, or_false] at isTail
      rcases isTail with rfl | rfl | rfl | rfl
      · exact .interopCheck check
      · exact .idValidityCheck check
      · exact .verCheck check
      · exact .report isReturn
  · simp only [PassState.insertCheck, List.mem_cons, List.mem_append] at listed
    rcases listed with rfl | rfl | (listed | isRest) | isTail
    · exact .inr rfl
    · refine .inr (mcfiX64ICJ_branches _ _ _ _ ?_)
      cases cj <;> first | rfl | cases isCj
    · exact .inl (nextRest mbb listed)
    · exact laid.pending mbb (pending ▸ List.mem_cons_of_mem _ isRest)
    · exact .inr (tailBlocks_branches isTail)
  · rw [blocks]
    refine replaced.append ?_ fun last isLast first isFirst => ?_
    · exact .cons_cons rfl (.cons_cons rfl (.cons_cons rfl (.singleton _)))
    · obtain rfl := Option.some.inj isFirst
      exact stops last isLast
  · intro mbb isLast
    have tail : tailBlocks (start.advance front.length) regs isReturn ≠ [] :=
      List.cons_ne_nil _ _
    rw [blocks, List.getLast?_append_of_ne_nil _ tail] at isLast
    obtain rfl := Option.some.inj isLast
    rfl
  · rw [blocks]
    obtain ⟨mbb, isHolder, home, succs⟩ := laid.holders index other isOther
    rw [pending] at isHolder
    rcases List.mem_append.mp isHolder with isVisited | behind
    · exact ⟨mbb, by simp [isVisited], home, succs⟩
    rcases List.mem_cons.mp behind with rfl | isRest
    · -- its successors went to the last of the new blocks
      rcases isNext with rfl | ⟨rfl, -⟩
      · exact ⟨mcfiX64ICJ (start.advance front.length) regs cj block.falls block.labels,
          by simp [checkedBlocks, MachineBasicBlock.succsBehind,
            MachineBasicBlock.fallsBehind, FunctionBlock.rest], home, succs⟩
      · exact ⟨block.rest (start.advance (front.length + 1)), by simp [checkedBlocks], home,
          succs⟩
    · exact ⟨mbb, by simp [isRest], home, succs⟩

end

/-- Blocks of the function, in front of the pass. -/
theorem MachineFunction.mbbs_getElem? (f : MachineFunction) (index : Nat) :
    f.mbbs[index]? = f.blocks[index]?.map fun block => block.rest ⟨index, 0⟩ :=
  List.getElem?_mapIdx

theorem FunctionBlock.falls_iff {block : FunctionBlock} :
    block.falls = true ↔ block.exit = .fallThrough := by
  rw [falls]
  cases block.exit <;> simp

/-- The layout in front of the pass. -/
theorem Laid.start (f : MachineFunction) (moduleID : BitVec 64) (before : PassState) :
    Laid f moduleID {
      before with
      visited := []
      pending := f.mbbs
      loads32 := [] } := by
  have isRest : ∀ mbb ∈ f.mbbs, ∃ (index : Nat) (block : FunctionBlock),
      f.blocks[index]? = some block ∧ mbb = block.rest ⟨index, 0⟩ := by
    intro mbb listed
    obtain ⟨index, isMbb⟩ := List.mem_iff_getElem?.mp listed
    rw [f.mbbs_getElem?] at isMbb
    obtain ⟨block, found, rfl⟩ := Option.map_eq_some_iff.mp isMbb
    exact ⟨index, block, found, rfl⟩
  have length : f.mbbs.length = f.blocks.length := List.length_mapIdx
  refine ⟨fun mbb listed => ?_, fun mbb listed => ?_, ?_, fun mbb isLast => ?_,
    fun index block found => ?_⟩
  · obtain ⟨index, block, found, rfl⟩ := isRest mbb listed
    exact @PlacedBlock.rest f moduleID _ ⟨index, 0⟩ block found (Nat.zero_le _)
  · obtain ⟨index, block, found, rfl⟩ := isRest mbb listed
    exact .inl ⟨⟨index, 0⟩, block, found, Nat.zero_le _, rfl⟩
  · refine List.isChain_iff_getElem.mpr fun index inRange => ?_
    have first : index < f.blocks.length := by
      have := length ▸ inRange
      omega
    simp only [List.nil_append, MachineFunction.mbbs, List.getElem_mapIdx]
    intro falls
    have isFall := FunctionBlock.falls_iff.mp falls
    exact mem_labels_of rfl (f.falls index _ (List.getElem?_eq_getElem first) isFall).2
  · simp only [List.nil_append, List.getLast?_eq_getElem?, f.mbbs_getElem?, length] at isLast
    obtain ⟨block, found, rfl⟩ := Option.map_eq_some_iff.mp isLast
    by_contra falls
    have isFall := FunctionBlock.falls_iff.mp (Bool.eq_true_of_not_eq_false falls)
    have inRange := (f.falls _ block found isFall).1
    omega
  · have listed : block.rest ⟨index, 0⟩ ∈ f.mbbs := by
      refine List.mem_iff_getElem?.mpr ⟨index, ?_⟩
      rw [f.mbbs_getElem?, found]
      rfl
    exact ⟨_, listed, rfl, rfl⟩

theorem FunctionBlock.falls_of_exit {block : FunctionBlock} {exit : ExitInstr}
    (isExit : block.exitInstr = some exit) : block.falls = false := by
  rw [exitInstr] at isExit
  rw [falls]
  cases atEnd : block.exit with
  | fallThrough => simp [atEnd] at isExit
  | stop => rfl
  | branch exit => rfl

theorem ExitOpcode.cjOp_through (opcode : ExitOpcode) (target : Reg) :
    opcode.cjOp target = .jmp64r target ∨ opcode.cjOp target = .tailJmpR64 target := by
  cases opcode with
  | jmp64r => exact .inl rfl
  | jmp64m => exact .inl rfl
  | _ => exact .inr rfl

section Visits

variable {state next : PassState} {mbb : MachineBasicBlock} {rest : List MachineBasicBlock}

/-- A block that is left as it is keeps the layout. -/
theorem Laid.skip (laid : Laid f moduleID state) (pending : state.pending = mbb :: rest) :
    Laid f moduleID (state.skip mbb rest) := by
  have same : (state.skip mbb rest).visited ++ (state.skip mbb rest).pending =
      state.visited ++ state.pending := by
    rw [pending]
    exact (List.append_cons ..).symm
  refine ⟨?_, fun other listed => ?_, ?_, ?_, ?_⟩
  · rw [same]
    exact laid.placed
  · exact laid.pending other (pending ▸ List.mem_cons_of_mem _ listed)
  · rw [same]
    exact laid.adjacent
  · rw [same]
    exact laid.last
  · rw [same]
    exact laid.holders

/-- A block with a branch is the rest of a block of the function. -/
theorem Laid.rest_of_branches (laid : Laid f moduleID state)
    (pending : state.pending = mbb :: rest) (branches : mbb.branches ≠ 0) :
    ∃ (start : Place) (block : FunctionBlock), f.blocks[start.block]? = some block ∧
      start.index ≤ block.insts.length ∧ mbb = block.rest start := by
  rcases laid.pending mbb (pending ▸ List.mem_cons_self) with isRest | none
  · exact isRest
  · exact absurd none branches

/-- The return of a signal handler is replaced. -/
theorem Laid.handler {exit : ExitInstr} (laid : Laid f moduleID state)
    (pending : state.pending = mbb :: rest) (isExit : mbb.exit = some exit) :
    Laid f moduleID (state.mcfiX64Sigreturn mbb rest) := by
  have branches : mbb.branches ≠ 0 := by simp [MachineBasicBlock.branches, isExit]
  obtain ⟨start, block, found, inside, rfl⟩ := laid.rest_of_branches pending branches
  have falls := FunctionBlock.falls_of_exit isExit
  have isHandler : block.handler start = {
      block.rest start with
      code := (block.rest start).code ++ [.check (.pop .rcx), .sigreturn]
      exit := none } := by
    simp only [FunctionBlock.handler, FunctionBlock.rest, falls]
  have shape : (state.mcfiX64Sigreturn (block.rest start) rest).visited ++
      (state.mcfiX64Sigreturn (block.rest start) rest).pending =
      state.visited ++ ([block.handler start] ++ rest) := by
    rw [isHandler]
    exact List.append_assoc ..
  have adjacent := laid.adjacent
  have lastFalls := laid.last
  rw [pending] at adjacent lastFalls
  refine ⟨fun other listed => ?_, fun other listed => ?_, ?_, ?_,
    fun index other isOther => ?_⟩
  · rw [shape] at listed
    rcases List.mem_append.mp listed with isVisited | listed
    · exact laid.placed other (List.mem_append_left _ isVisited)
    rcases List.mem_cons.mp listed with rfl | isRest
    · exact .handler found inside
    · exact laid.placed other
        (pending ▸ List.mem_append_right _ (List.mem_cons_of_mem _ isRest))
  · exact laid.pending other (pending ▸ List.mem_cons_of_mem _ listed)
  · rw [shape]
    refine isChain_replace adjacent (fun first => Adjacent.enter rfl rfl) (.singleton _)
      fun last isLast second => ?_
    obtain rfl := Option.some.inj isLast
    exact Adjacent.resume falls.symm rfl
  · rw [shape]
    refine getLast?_replace lastFalls fun _ last isLast => ?_
    obtain rfl := Option.some.inj isLast
    rfl
  · rw [shape]
    obtain ⟨mbb, isHolder, home, succs⟩ := laid.holders index other isOther
    rw [pending] at isHolder
    rcases List.mem_append.mp isHolder with isVisited | behind
    · exact ⟨mbb, by simp [isVisited], home, succs⟩
    rcases List.mem_cons.mp behind with rfl | isRest
    · exact ⟨block.handler start, by simp, home, succs⟩
    · exact ⟨mbb, by simp [isRest], home, succs⟩

theorem Replaces.branchSlot {front : List PassInst} {behind : Option MachineBasicBlock}
    {target : BranchTarget} {uses : List RegUse} {cj : Reg → BitVec 64 → PassInst}
    (replaces : Replaces mbb front behind target uses cj) (reg : Reg) (barySlot : BitVec 64) :
    (cj reg barySlot).branchSlot = some barySlot := by
  cases replaces <;> rfl

/-- The branch behind the check of one that is replaced. -/
theorem Replaces.placed_icj {block : FunctionBlock} {start : Place} {front : List PassInst}
    {behind : Option MachineBasicBlock} {target : BranchTarget} {uses : List RegUse}
    {cj : Reg → BitVec 64 → PassInst} {barySlot : BitVec 64}
    (replaces : Replaces (block.rest start) front behind target uses cj)
    (found : f.blocks[start.block]? = some block)
    (check : f.CheckAt (start.advance front.length) (siteOf target uses).checkRegs) :
    PlacedBlock f moduleID loads32
      (mcfiX64ICJ (start.advance front.length) (siteOf target uses).checkRegs
        (cj (siteOf target uses).checkRegs.target barySlot)
        ((block.rest start).fallsBehind behind) ((block.rest start).succsBehind behind)) := by
  cases replaces with
  | lastCall code noExit attached isTarget =>
      obtain ⟨inRange, -, isCall, none⟩ := FunctionBlock.call_at found code
      have atEnd : start.index + front.length + 1 = block.insts.length :=
        Nat.le_antisymm inRange (List.drop_eq_nil_iff.mp none)
      exact .icjCall barySlot found isCall attached isTarget (.inr ⟨atEnd, rfl, rfl⟩)
  | call code attached isTarget =>
      obtain ⟨-, -, isCall, -⟩ := FunctionBlock.call_at found code
      exact .icjCall barySlot found isCall attached isTarget (.inl ⟨rfl, rfl⟩)
  | exit isExit attached isTarget =>
      have falls : (block.rest start).fallsBehind none = false :=
        FunctionBlock.falls_of_exit isExit
      rw [falls]
      exact .icjExit barySlot check (ExitOpcode.cjOp_through _ _)

/-- A visit keeps the layout. -/
theorem Laid.visits (live : f.TargetsLive) (laid : Laid f moduleID state)
    (pending : state.pending = mbb :: rest) (visits : Visits moduleID state mbb rest next) :
    Laid f moduleID next := by
  cases visits with
  | skip => exact laid.skip pending
  | sigreturn isExit isRet => exact laid.handler pending isExit
  | ret isExit isRet =>
      have branches : mbb.branches ≠ 0 := by simp [MachineBasicBlock.branches, isExit]
      obtain ⟨start, block, found, inside, rfl⟩ := laid.rest_of_branches pending branches
      have length : (block.rest start).code.length = block.insts.length - start.index :=
        List.length_drop
      have atEnd : start.index + (block.rest start).code.length = block.insts.length := by
        omega
      have isPlace : start.advance (block.rest start).code.length =
          ⟨start.block, block.insts.length⟩ := congrArg (Place.mk start.block) atEnd
      have check : f.CheckAt (start.advance (block.rest start).code.length) retRegs :=
        isPlace ▸ .ret found isExit isRet
      have falls : (block.rest start).fallsBehind none = false :=
        FunctionBlock.falls_of_exit isExit
      have placed : PlacedBlock f moduleID state.loads32
          (mcfiX64ICJ (start.advance (block.rest start).code.length) retRegs
            (.checkedExit (.jmp64r .rcx) (slotNumber moduleID state.barySlot))
            ((block.rest start).fallsBehind none) ((block.rest start).succsBehind none)) :=
        falls ▸ .icjExit _ check (.inl rfl)
      have inserted := laid.insertCheck true pending found (Nat.le_of_eq atEnd)
        (List.take_length ..).symm (.inl rfl) (List.Subset.refl _) check .returned rfl placed
      exact ⟨inserted.placed, inserted.pending, inserted.adjacent, inserted.last,
        inserted.holders⟩
  | @branch front behind target uses cj irInst tailCall after replaces made =>
      have branches : mbb.branches ≠ 0 := by
        have := replaces.branches
        omega
      obtain ⟨start, block, found, inside, rfl⟩ := laid.rest_of_branches pending branches
      have branch := replaces.restBranch found inside
      have check : f.CheckAt (start.advance front.length) (siteOf target uses).checkRegs :=
        .branch branch.isBranch
      obtain rfl := PassState.mcfiX64IndirectCall_spec made
      have inserted := laid.insertCheck false pending found branch.inside branch.isFront
        (branch.isNext.imp_left And.left) (List.subset_append_right _ _) check
        (branch.truncates live laid pending) (replaces.branchSlot _ _)
        (replaces.placed_icj found check)
      exact ⟨inserted.placed, inserted.pending, inserted.adjacent, inserted.last,
        inserted.holders⟩

end Visits

end Insertion

end Mcfi
