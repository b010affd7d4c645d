import Mcfi.Lib.X86

namespace Mcfi

open X86

/-!
# Instrumented indirect calls

`MCFIx64IndirectCall` replaces an indirect call, jump or tail call by a check and a
branch through a register.  The check needs two scratch registers; they are taken from
the caller-saved registers that no operand uses, and spilled when there are too few.
The 64-bit load that defines the target register becomes a 32-bit load, and the target
register is truncated otherwise.
-/

section Site

/-- The names of a general register that an operand can use. -/
inductive RegName where
  | gr8
  | gr16
  | gr32
  | gr64
  deriving DecidableEq, Repr

/-- A use of a general register, under one of its names. -/
structure RegUse where
  reg : Reg
  name : RegName
  deriving DecidableEq, Repr

/-- The operand of a call, a jump or a tail call: a register or a memory operand. -/
inductive BranchTarget where
  | reg (reg : Reg)
  | mem (operand : MemOperand)

/--
The instructions in front of a branch, as the pass sees them.  `defs` are the registers
for which `definesRegister` holds; `clobbers` are those that are changed otherwise,
such as by a write to a part of them or by a call.
-/
inductive MachineInstr where
  | mov64rm (dst : Reg) (src : MemOperand)
  | other (opcode : Nat) (uses defs clobbers : List Reg)

namespace MachineInstr

/-- The registers an instruction reads. -/
def uses : MachineInstr → List Reg
  | mov64rm _ src => src.base.toList ++ src.index.toList
  | other _ uses _ _ => uses

/-- The registers an instruction defines. -/
def defs : MachineInstr → List Reg
  | mov64rm dst _ => [dst]
  | other _ _ defs _ => defs

/-- The registers an instruction changes besides. -/
def clobbers : MachineInstr → List Reg
  | mov64rm _ _ => []
  | other _ _ _ clobbers => clobbers

end MachineInstr

/-- The single predecessor of a block, with what its other successors expect. -/
structure SinglePred where
  code : List MachineInstr
  otherLiveIns : List Reg

/-- A branch that is to be instrumented, behind the code of its block. -/
structure BranchSite where
  target : BranchTarget
  uses : List RegUse
  block : List MachineInstr
  pred : Option SinglePred
  barySlot : Nat

namespace BranchSite

variable (site : BranchSite)

/-- The register operands of the target. -/
def targetOperands : List RegUse :=
  match site.target with
  | .reg reg => [⟨reg, .gr64⟩]
  | .mem operand => (operand.base.toList ++ operand.index.toList).map (⟨·, .gr64⟩)

/-- All register operands. -/
def operands : List RegUse :=
  site.targetOperands ++ site.uses

/-- The code of the predecessor. -/
def predCode : List MachineInstr :=
  match site.pred with
  | some pred => pred.code
  | none => []

/-- What the other successors of the predecessor expect. -/
def otherLiveIns : List Reg :=
  match site.pred with
  | some pred => pred.otherLiveIns
  | none => []

/-- The code in front of the branch. -/
def code : List MachineInstr :=
  site.predCode ++ site.block

end BranchSite

end Site

section Choice

/-- The caller-saved registers, in the order of their numbers. -/
def callerSaved : List Reg := [.rax, .rcx, .rdi, .rdx, .rsi, .r8, .r9, .r10]

/-- The registers that `getX64ScratchReg` tries, in the order of their numbers. -/
def gRegs : List Reg :=
  [.rax, .rbx, .rcx, .rdi, .rdx, .rsi, .r8, .r9, .r10, .r11, .r12, .r13, .r14, .r15]

/-- `getX64ScratchReg`; it finds one before the end of the list. -/
def getX64ScratchReg (reg1 reg2 : Reg) : Reg :=
  match gRegs.find? fun reg => reg1 ≠ reg && reg2 ≠ reg with
  | some reg => reg
  | none => .rax

/-- An operand takes a register from the scratch registers, unless its name is 16 bits wide. -/
def RegUse.erases (use : RegUse) (reg : Reg) : Bool :=
  use.reg = reg && use.name ≠ .gr16

/-- `ScratchRegs`: "R11 must be available even if no other GRegs are available". -/
def BranchSite.scratchRegs (site : BranchSite) : List Reg :=
  callerSaved.filter (fun reg => !site.operands.any (·.erases reg)) ++ [.r11]

/-- The registers of a check, and whether they are spilled. -/
structure CheckRegs where
  target : Reg
  bid : Reg
  tid : Reg
  bidSpill : Bool
  tidSpill : Bool
  deriving DecidableEq, Repr

/-- The registers besides the target, from those that are left. -/
def chooseIDRegs (target : Reg) : List Reg → CheckRegs
  | bid :: tid :: _ => ⟨target, bid, tid, false, false⟩
  | [bid] => ⟨target, bid, getX64ScratchReg target bid, false, true⟩
  | [] =>
      let bid := getX64ScratchReg target target
      ⟨target, bid, getX64ScratchReg target bid, true, true⟩

/-- The registers that `MCFIx64IndirectCall` chooses. -/
def BranchSite.checkRegs (site : BranchSite) : CheckRegs :=
  match site.target, site.scratchRegs with
  | .reg target, scratchRegs => chooseIDRegs target scratchRegs
  | .mem _, target :: scratchRegs => chooseIDRegs target scratchRegs
  | .mem _, [] => chooseIDRegs .r11 []

end Choice

section Code

/-- An instruction behind the pass: one that was there, or the load that replaces one. -/
inductive EmittedInstr where
  | original (instr : MachineInstr)
  | mov32rm (dst : Reg) (src : MemOperand)

/-- Split code at the last instruction that defines a register. -/
def splitDef (reg : Reg) :
    List MachineInstr → Option (List MachineInstr × MachineInstr × List MachineInstr)
  | [] => none
  | instr :: rest =>
      match splitDef reg rest with
      | some (front, found, between) => some (instr :: front, found, between)
      | none => if reg ∈ instr.defs then some ([], instr, rest) else none

namespace BranchSite

variable (site : BranchSite)

/--
The load that is replaced, with what is in front of it and what is between it and the
branch: the definition of the target register, in the block or else in the predecessor,
when it is a 64-bit load.
-/
def targetLoad : Option (List MachineInstr × MemOperand × List MachineInstr) :=
  match site.target with
  | .mem _ => none
  | .reg target =>
      match splitDef target site.block with
      | some (front, .mov64rm _ src, between) => some (site.predCode ++ front, src, between)
      | some _ => none
      | none =>
          match splitDef target site.predCode with
          | some (front, .mov64rm _ src, between) => some (front, src, between ++ site.block)
          | _ => none

/-- The code in front of the branch, behind the pass. -/
def emittedCode : List EmittedInstr :=
  match site.targetLoad with
  | some (front, src, between) =>
      front.map .original ++ .mov32rm site.checkRegs.target src :: between.map .original
  | none => site.code.map .original

/-- The instruction that truncates or loads the target, where the branch was. -/
def truncation : List Instr :=
  match site.target, site.targetLoad with
  | .reg target, none => [.mov32 target target]
  | .reg _, some _ => []
  | .mem operand, _ => [.load32 site.checkRegs.target operand]

end BranchSite

namespace CheckRegs

variable (regs : CheckRegs)

/-- The spills, at the end of the block. -/
def pushes : List Instr :=
  (if regs.bidSpill then [.push regs.bid] else []) ++
    if regs.tidSpill then [.push regs.tid] else []

/-- The reloads, in front of the branch. -/
def pops : List Instr :=
  (if regs.tidSpill then [.pop regs.tid] else []) ++
    if regs.bidSpill then [.pop regs.bid] else []

/-- `mov %gs:BarySlot, BIDReg`. -/
def baryRead (barySlot : Nat) : Instr :=
  .load64 regs.bid ⟨none, 1, none, BitVec.ofNat 64 (0x1000 + barySlot * 8), some .gs⟩

/-- `mov %gs:(TargetReg), TIDReg`. -/
def taryRead : Instr :=
  .load64 regs.tid ⟨some regs.target, 1, none, 0, some .gs⟩

/-- `cmp $0xfc, TIDReg`, behind which the branch follows when it is equal. -/
def interopCheck : Instr :=
  .cmpImm8 regs.tid 0xfc

/-- `test $1, TIDReg`, behind which a violation is reported when it is zero. -/
def idValidityCheck : Instr :=
  .testImm8 regs.tid 1

/-- `cmp BIDReg, TIDReg`, behind which the check starts again when it is not equal. -/
def idVersionCheck : Instr :=
  .cmp32 regs.bid regs.tid

end CheckRegs

end Code

section Execution

/-- What the instructions compute that the pass does not look at. -/
abbrev Effect := MachineInstr → Machine → Machine

/--
An instruction changes no register but those it defines and clobbers, and a register
that it does not name has no influence on it.
-/
structure Interprets (effect : Effect) : Prop where
  frame : ∀ instr m reg, reg ∉ instr.defs → reg ∉ instr.clobbers →
    (effect instr m).regs reg = m.regs reg
  reads : ∀ instr m reg value, reg ∉ instr.uses → reg ∉ instr.defs →
    reg ∉ instr.clobbers →
      effect instr (m.setReg reg value) = (effect instr m).setReg reg value

/-- Execute an instruction of the function. -/
def MachineInstr.exec (effect : Effect) (instr : MachineInstr) (m : Machine) : Machine :=
  match instr with
  | .mov64rm dst src => (Instr.load64 dst src).exec m
  | .other .. => effect instr m

/-- Execute an instruction behind the pass. -/
def EmittedInstr.exec (effect : Effect) (instr : EmittedInstr) (m : Machine) : Machine :=
  match instr with
  | .original instr => instr.exec effect m
  | .mov32rm dst src => (Instr.load32 dst src).exec m

/-- Execute instructions of the function. -/
def runCode (effect : Effect) (code : List MachineInstr) (m : Machine) : Machine :=
  code.foldl (fun m instr => instr.exec effect m) m

/-- Execute instructions behind the pass. -/
def runEmitted (effect : Effect) (code : List EmittedInstr) (m : Machine) : Machine :=
  code.foldl (fun m instr => instr.exec effect m) m

/-- Where the branch goes when it is not instrumented. -/
def BranchTarget.address (target : BranchTarget) (m : Machine) : BitVec 64 :=
  match target with
  | .reg name => m.regs name
  | .mem operand => BitVec.ofNat 64 (m.mem.load (m.addr operand) 8)

/--
Execute an instruction of the check.  The tables change under the check, so a load from
them may give anything.
-/
def execReading (read : BitVec 64) (instr : Instr) (m : Machine) : Machine :=
  match instr with
  | .load64 dst ⟨_, _, _, _, some .gs⟩ => m.setReg dst read
  | instr => instr.exec m

namespace CheckRegs

/-- The block that reads and compares the IDs. -/
def IDCmp (regs : CheckRegs) (barySlot : Nat) (m compared : Machine) : Prop :=
  ∃ bary tary, compared = (Instr.cmp64 regs.bid regs.tid).exec
    (execReading tary regs.taryRead (execReading bary (regs.baryRead barySlot) m))

/-- A check that passes, from its first block to the block of the branch. -/
inductive Passes (regs : CheckRegs) (barySlot : Nat) : Machine → Machine → Prop where
  | equal {m compared : Machine} (compares : regs.IDCmp barySlot m compared)
      (same : compared.zf = true) : Passes regs barySlot m compared
  | interop {m compared : Machine} (compares : regs.IDCmp barySlot m compared)
      (differ : compared.zf = false)
      (native : (regs.interopCheck.exec compared).zf = true) :
      Passes regs barySlot m (regs.interopCheck.exec compared)
  | again {m compared after : Machine} (compares : regs.IDCmp barySlot m compared)
      (differ : compared.zf = false)
      (notNative : (regs.interopCheck.exec compared).zf = false)
      (valid : (regs.idValidityCheck.exec compared).zf = false)
      (outdated : (regs.idVersionCheck.exec compared).zf = false)
      (later : Passes regs barySlot (regs.idVersionCheck.exec compared) after) :
      Passes regs barySlot m after

end CheckRegs

/-- The emitted code, from the start of the code to the branch at the end of the check. -/
def BranchSite.Reaches (site : BranchSite) (effect : Effect) (start branching : Machine) :
    Prop :=
  ∃ checked,
    site.checkRegs.Passes site.barySlot
      (run (site.truncation ++ site.checkRegs.pushes)
        (runEmitted effect site.emittedCode start)) checked ∧
    branching = run site.checkRegs.pops checked

/-- The registers that must hold what they held: the stack pointer and the operands. -/
def BranchSite.kept (site : BranchSite) : List Reg :=
  .rsp :: (match site.target with
    | .reg _ => site.uses
    | .mem _ => site.operands).map RegUse.reg

/-- Instrumenting a branch preserves it. -/
structure BranchSite.Preserved (site : BranchSite) : Prop where
  distinct : site.checkRegs.bid ≠ site.checkRegs.tid ∧
    site.checkRegs.bid ≠ site.checkRegs.target ∧
    site.checkRegs.tid ≠ site.checkRegs.target
  transfers : ∀ effect, Interprets effect → ∀ start branching,
    site.Reaches effect start branching →
      branching.regs site.checkRegs.target =
          truncated (site.target.address (runCode effect site.code start)) ∧
        ∀ reg ∈ site.kept,
          branching.regs reg = (runCode effect site.code start).regs reg
  uses : ∀ effect, Interprets effect → ∀ start early instr late,
    site.code = early ++ instr :: late → ∀ reg ∈ instr.uses,
      (runEmitted effect (site.emittedCode.take early.length) start).regs reg =
        (runCode effect early start).regs reg
  liveIns : ∀ effect, Interprets effect → ∀ start, ∀ reg ∈ site.otherLiveIns,
    (runEmitted effect (site.emittedCode.take site.predCode.length) start).regs reg =
      (runCode effect site.predCode start).regs reg

/-- How many registers the check needs. -/
def BranchSite.needed (site : BranchSite) : Nat :=
  match site.target with
  | .reg _ => 2
  | .mem _ => 3

/-- What the operands of the branch and the code in front of it have to be. -/
structure BranchSite.Separate (site : BranchSite) : Prop where
  operands : ∀ use ∈ site.operands, use.reg ∉ site.scratchRegs.take site.needed
  target : ∀ reg, site.target = .reg reg → reg ∉ site.kept
  between : ∀ front src between, site.targetLoad = some (front, src, between) →
    ∀ instr ∈ between, site.checkRegs.target ∉ instr.uses ∧
      site.checkRegs.target ∉ instr.clobbers
  liveIns : ∀ front src between, site.targetLoad = some (front, src, between) →
    front.length < site.predCode.length → site.checkRegs.target ∉ site.otherLiveIns

end Execution

section Registers

theorem getX64ScratchReg_spec (reg1 reg2 : Reg) :
    getX64ScratchReg reg1 reg2 ≠ reg1 ∧ getX64ScratchReg reg1 reg2 ≠ reg2 ∧
      getX64ScratchReg reg1 reg2 ≠ .rsp := by
  rw [getX64ScratchReg]
  cases found : gRegs.find? fun reg => reg1 ≠ reg && reg2 ≠ reg with
  | some reg =>
      have other := List.find?_some found
      have listed := List.mem_of_find?_eq_some found
      simp only [Bool.and_eq_true, decide_eq_true_eq] at other
      refine ⟨other.1.symm, other.2.symm, ?_⟩
      rintro rfl
      exact absurd listed (by decide)
  | none =>
      -- one of three registers is neither of two
      have absent := List.find?_eq_none.mp found
      have first := absent .rax (by decide)
      have second := absent .rbx (by decide)
      have third := absent .rcx (by decide)
      simp only [Bool.and_eq_true, decide_eq_true_eq, not_and_or, not_not] at first second third
      exfalso
      rcases first with rfl | rfl <;> rcases second with same | same <;>
        rcases third with same' | same' <;> simp_all

namespace BranchSite

variable {site : BranchSite}

private theorem scratchRegs_sublist : site.scratchRegs.Sublist (callerSaved ++ [.r11]) :=
  List.filter_sublist.append (List.Sublist.refl _)

theorem scratchRegs_nodup : site.scratchRegs.Nodup :=
  scratchRegs_sublist.nodup (by decide)

theorem rsp_not_mem_scratchRegs : .rsp ∉ site.scratchRegs := fun listed =>
  absurd (scratchRegs_sublist.subset listed) (by decide)

theorem scratchRegs_ne_nil : site.scratchRegs ≠ [] :=
  List.append_ne_nil_of_right_ne_nil _ (List.cons_ne_nil _ _)

end BranchSite

namespace CheckRegs

/--
Registers that a check can use without harm to the registers in `kept`: those that are
not spilled are not among them.
-/
structure Apart (regs : CheckRegs) (kept : List Reg) : Prop where
  bidTid : regs.bid ≠ regs.tid
  bidTarget : regs.bid ≠ regs.target
  tidTarget : regs.tid ≠ regs.target
  bidStack : regs.bid ≠ .rsp
  tidStack : regs.tid ≠ .rsp
  target : regs.target ∉ kept
  bid : regs.bidSpill = false → regs.bid ∉ kept
  tid : regs.tidSpill = false → regs.tid ∉ kept
  order : regs.bidSpill = true → regs.tidSpill = true

end CheckRegs

@[simp] theorem chooseIDRegs_target (target : Reg) (left : List Reg) :
    (chooseIDRegs target left).target = target := by
  match left with
  | [] => rfl
  | [_] => rfl
  | _ :: _ :: _ => rfl

/-- Registers that are not spilled are the first that are left. -/
theorem chooseIDRegs_unspilled (target : Reg) (left : List Reg) :
    ((chooseIDRegs target left).bidSpill = false →
        (chooseIDRegs target left).bid ∈ left.take 2) ∧
      ((chooseIDRegs target left).tidSpill = false →
        (chooseIDRegs target left).tid ∈ left.take 2) := by
  match left with
  | [] => exact ⟨(fun never => nomatch never), fun never => nomatch never⟩
  | [bid] => exact ⟨fun _ => List.mem_cons_self, fun never => nomatch never⟩
  | bid :: tid :: rest =>
      exact ⟨fun _ => List.mem_cons_self, fun _ => List.mem_cons_of_mem _ List.mem_cons_self⟩

/-- The first two registers that are left are used, without a spill. -/
theorem mem_take_chooseIDRegs {target reg : Reg} {left : List Reg} (first : reg ∈ left.take 2) :
    (chooseIDRegs target left).bidSpill = false ∧ reg = (chooseIDRegs target left).bid ∨
      (chooseIDRegs target left).tidSpill = false ∧ reg = (chooseIDRegs target left).tid := by
  match left, first with
  | [bid], first => exact .inl ⟨rfl, List.mem_singleton.mp first⟩
  | bid :: tid :: rest, first =>
      rcases List.mem_cons.mp first with same | second
      · exact .inl ⟨rfl, same⟩
      · exact .inr ⟨rfl, List.mem_singleton.mp second⟩

theorem chooseIDRegs_stack {target : Reg} {left : List Reg} (stack : .rsp ∉ left) :
    (chooseIDRegs target left).bid ≠ .rsp ∧ (chooseIDRegs target left).tid ≠ .rsp ∧
      ((chooseIDRegs target left).bidSpill = true →
        (chooseIDRegs target left).tidSpill = true) := by
  match left with
  | [] =>
      exact ⟨(getX64ScratchReg_spec _ _).2.2, (getX64ScratchReg_spec _ _).2.2, fun _ => rfl⟩
  | [bid] =>
      exact ⟨fun same => stack (same ▸ List.mem_cons_self), (getX64ScratchReg_spec _ _).2.2,
        fun _ => rfl⟩
  | bid :: tid :: rest =>
      exact ⟨fun same => stack (same ▸ List.mem_cons_self),
        fun same => stack (same ▸ List.mem_cons_of_mem _ List.mem_cons_self),
        fun never => nomatch never⟩

theorem chooseIDRegs_distinct {target : Reg} {left : List Reg} (nodup : left.Nodup)
    (free : target ∉ left.take 2) :
    (chooseIDRegs target left).bid ≠ (chooseIDRegs target left).tid ∧
      (chooseIDRegs target left).bid ≠ target ∧ (chooseIDRegs target left).tid ≠ target := by
  match left with
  | [] =>
      have bid := getX64ScratchReg_spec target target
      have tid := getX64ScratchReg_spec target (getX64ScratchReg target target)
      exact ⟨tid.2.1.symm, bid.1, tid.1⟩
  | [bid] =>
      have tid := getX64ScratchReg_spec target bid
      refine ⟨tid.2.1.symm, fun same : bid = target => free ?_, tid.1⟩
      exact same ▸ List.mem_cons_self
  | bid :: tid :: rest =>
      refine ⟨fun same : bid = tid => ?_, fun same : bid = target => free ?_,
        fun same : tid = target => free ?_⟩
      · exact (List.nodup_cons.mp nodup).1 (same ▸ List.mem_cons_self)
      · exact same ▸ List.mem_cons_self
      · exact same ▸ List.mem_cons_of_mem _ List.mem_cons_self

theorem chooseIDRegs_apart {target : Reg} {left kept : List Reg} (nodup : left.Nodup)
    (stack : .rsp ∉ left) (targetFree : target ∉ left.take 2) (targetKept : target ∉ kept)
    (free : ∀ reg ∈ left.take 2, reg ∉ kept) :
    (chooseIDRegs target left).Apart kept := by
  obtain ⟨bidTid, bidTarget, tidTarget⟩ := chooseIDRegs_distinct nodup targetFree
  obtain ⟨bidStack, tidStack, order⟩ := @chooseIDRegs_stack target left stack
  obtain ⟨bid, tid⟩ := chooseIDRegs_unspilled target left
  have same := chooseIDRegs_target target left
  exact {
    bidTid, bidStack, tidStack, order
    bidTarget := fun meets => bidTarget (meets.trans same)
    tidTarget := fun meets => tidTarget (meets.trans same)
    target := by
      rw [same]
      exact targetKept
    bid := fun unspilled => free _ (bid unspilled)
    tid := fun unspilled => free _ (tid unspilled)
  }

/-- Where the target comes from, and the registers that are left for the IDs. -/
theorem BranchSite.checkRegs_cases (site : BranchSite) :
    (∃ target, site.target = .reg target ∧
      site.checkRegs = chooseIDRegs target site.scratchRegs) ∨
    ∃ operand target left, site.target = .mem operand ∧
      site.scratchRegs = target :: left ∧ site.checkRegs = chooseIDRegs target left := by
  cases isTarget : site.target with
  | reg target => exact .inl ⟨target, rfl, by rw [checkRegs, isTarget]⟩
  | mem operand =>
      cases left : site.scratchRegs with
      | nil => exact absurd left scratchRegs_ne_nil
      | cons target rest =>
          exact .inr ⟨operand, target, rest, rfl, rfl, by rw [checkRegs, isTarget, left]⟩

/-- Separate registers do no harm. -/
theorem BranchSite.Separate.apart {site : BranchSite} (separate : site.Separate) :
    site.checkRegs.Apart site.kept := by
  have stack := site.rsp_not_mem_scratchRegs
  have nodup := site.scratchRegs_nodup
  have operands := separate.operands
  rcases site.checkRegs_cases with ⟨target, isTarget, chosen⟩ |
    ⟨operand, target, left, isTarget, shape, chosen⟩
  · have kept : site.kept = .rsp :: site.uses.map RegUse.reg := by
      rw [BranchSite.kept, isTarget]
    have targets : site.targetOperands = [⟨target, .gr64⟩] := by
      rw [targetOperands, isTarget]
    simp only [BranchSite.operands, targets, needed, isTarget] at operands
    rw [chosen]
    refine chooseIDRegs_apart nodup stack (operands ⟨target, .gr64⟩ List.mem_cons_self)
      (separate.target target isTarget) fun reg first listed => ?_
    rw [kept] at listed
    rcases List.mem_cons.mp listed with rfl | isUse
    · exact stack (List.mem_of_mem_take first)
    · obtain ⟨use, useListed, rfl⟩ := List.mem_map.mp isUse
      exact operands use (List.mem_cons_of_mem _ useListed) first
  · have kept : site.kept = .rsp :: site.operands.map RegUse.reg := by
      rw [BranchSite.kept, isTarget]
    simp only [needed, isTarget, shape] at operands
    rw [shape] at stack nodup
    have free : ∀ reg ∈ (target :: left).take 3, reg ∉ site.kept := by
      intro reg first listed
      rw [kept] at listed
      rcases List.mem_cons.mp listed with rfl | isUse
      · exact stack (List.mem_of_mem_take first)
      · obtain ⟨use, useListed, rfl⟩ := List.mem_map.mp isUse
        exact operands use useListed first
    rw [chosen]
    exact chooseIDRegs_apart (List.nodup_cons.mp nodup).2
      (fun listed => stack (List.mem_cons_of_mem _ listed))
      (fun listed => (List.nodup_cons.mp nodup).1 (List.mem_of_mem_take listed))
      (free target List.mem_cons_self)
      (fun reg first => free reg (List.mem_cons_of_mem _ first))

end Registers

section Spills

variable {regs : CheckRegs} {barySlot : Nat} {m checked : Machine} {kept : List Reg}

theorem setReg_same (m : Machine) (reg : Reg) (value : BitVec 64) :
    (m.setReg reg value).regs reg = value :=
  if_pos rfl

theorem setReg_other {reg other : Reg} (m : Machine) (value : BitVec 64)
    (differ : other ≠ reg) : (m.setReg reg value).regs other = m.regs other :=
  if_neg differ

/-- The registers of the IDs are written, and nothing else but the flags. -/
structure OnlyIDs (regs : CheckRegs) (m after : Machine) : Prop where
  mem : after.mem = m.mem
  regs : ∀ reg, reg ≠ regs.bid → reg ≠ regs.tid → after.regs reg = m.regs reg

theorem CheckRegs.IDCmp.onlyIDs {compared : Machine}
    (compares : regs.IDCmp barySlot m compared) : OnlyIDs regs m compared := by
  obtain ⟨bary, tary, rfl⟩ := compares
  exact ⟨rfl, fun reg notBid notTid =>
    (setReg_other _ tary notTid).trans (setReg_other m bary notBid)⟩

theorem CheckRegs.Passes.onlyIDs (passes : regs.Passes barySlot m checked) :
    OnlyIDs regs m checked := by
  induction passes with
  | equal compares same => exact compares.onlyIDs
  | interop compares differ native => exact ⟨compares.onlyIDs.mem, compares.onlyIDs.regs⟩
  | again compares differ notNative valid outdated later inductionHypothesis =>
      have first := compares.onlyIDs
      refine ⟨inductionHypothesis.mem.trans first.mem, fun reg notBid notTid => ?_⟩
      exact (inductionHypothesis.regs reg notBid notTid).trans (first.regs reg notBid notTid)

/-- A check passes when both IDs are the same. -/
theorem CheckRegs.exists_passes (regs : CheckRegs) (barySlot : Nat) (m : Machine) :
    ∃ checked, regs.Passes barySlot m checked ∧ checked.regs regs.bid = 0 ∧
      checked.regs regs.tid = 0 := by
  let read := (m.setReg regs.bid 0).setReg regs.tid 0
  have bid : read.regs regs.bid = 0 := by
    by_cases same : regs.bid = regs.tid
    · rw [same]
      exact setReg_same _ _ _
    · exact (setReg_other _ _ same).trans (setReg_same _ _ _)
  have tid : read.regs regs.tid = 0 := setReg_same _ _ _
  have compares : regs.IDCmp barySlot m ((Instr.cmp64 regs.bid regs.tid).exec read) :=
    ⟨0, 0, rfl⟩
  refine ⟨_, .equal compares ?_, bid, tid⟩
  change (read.regs regs.bid == read.regs regs.tid) = true
  rw [bid, tid, BEq.rfl]

/-- Two words below the stack pointer do not overlap, also around the address space. -/
theorem stack_words_apart (stack : BitVec 64) :
    (stack - 8).toNat + 8 ≤ (stack - 8 - 8).toNat ∨
      (stack - 8 - 8).toNat + 8 ≤ (stack - 8).toNat := by
  bv_omega

theorem pop_exec {m : Machine} {reg : Reg} {value : BitVec 64}
    (top : m.mem.load (m.regs .rsp).toNat 8 = value.toNat) :
    (Instr.pop reg).exec m = (m.setReg .rsp (m.regs .rsp + 8)).setReg reg value := by
  simp only [Instr.exec, top, BitVec.ofNat_toNat, BitVec.setWidth_eq]

/-- A word that was pushed is popped again. -/
theorem pop_pushed {popping : Machine} {reg : Reg} {stack value : BitVec 64}
    (pointer : popping.regs .rsp = stack - 8)
    (word : popping.mem.load (stack - 8).toNat 8 = value.toNat) :
    (Instr.pop reg).exec popping = (popping.setReg .rsp stack).setReg reg value := by
  rw [pop_exec (by rw [pointer]; exact word), pointer, BitVec.sub_add_cancel]

/-- The reloads bring back the stack pointer and what was spilled. -/
theorem OnlyIDs.pops_restore (only : OnlyIDs regs (run regs.pushes m) checked)
    (apart : regs.Apart kept) :
    (∀ reg, reg ≠ regs.bid → reg ≠ regs.tid →
        (run regs.pops checked).regs reg = m.regs reg) ∧
      (run regs.pops checked).regs regs.bid =
        (if regs.bidSpill then m.regs regs.bid else checked.regs regs.bid) ∧
      (run regs.pops checked).regs regs.tid =
        (if regs.tidSpill then m.regs regs.tid else checked.regs regs.tid) := by
  obtain ⟨target, bid, tid, bidSpill, tidSpill⟩ := regs
  have stackFree := only.regs .rsp apart.bidStack.symm apart.tidStack.symm
  have bidTid : bid ≠ tid := apart.bidTid
  have bidStack : bid ≠ .rsp := apart.bidStack
  have tidStack : tid ≠ .rsp := apart.tidStack
  match bidSpill, tidSpill with
  | false, false => exact ⟨only.regs, rfl, rfl⟩
  | true, false => exact nomatch apart.order rfl
  | false, true =>
      have popped : run [.pop tid] checked =
          (checked.setReg .rsp (m.regs .rsp)).setReg tid (m.regs tid) := by
        refine pop_pushed stackFree ?_
        rw [only.mem]
        exact ByteMem.load_store_same _ _ (m.regs tid).isLt
      refine ⟨fun reg notBid notTid => ?_, ?_, ?_⟩
      · change (run [.pop tid] checked).regs reg = _
        rw [popped, setReg_other _ _ notTid]
        by_cases isStack : reg = .rsp
        · rw [isStack, setReg_same]
        · rw [setReg_other _ _ isStack, only.regs reg notBid notTid]
          exact setReg_other _ _ isStack
      · change (run [.pop tid] checked).regs bid = checked.regs bid
        rw [popped, setReg_other _ _ bidTid, setReg_other _ _ bidStack]
      · change (run [.pop tid] checked).regs tid = m.regs tid
        rw [popped, setReg_same]
  | true, true =>
      let first := (m.store (m.regs .rsp - 8).toNat 8 (m.regs bid).toNat).setReg .rsp
        (m.regs .rsp - 8)
      have tidFirst : first.regs tid = m.regs tid := setReg_other _ _ tidStack
      have poppedTid : (Instr.pop tid).exec checked =
          (checked.setReg .rsp (m.regs .rsp - 8)).setReg tid (m.regs tid) := by
        refine pop_pushed stackFree ?_
        rw [only.mem, ← tidFirst]
        exact ByteMem.load_store_same _ _ (first.regs tid).isLt
      have poppedBid : run [.pop tid, .pop bid] checked =
          (((checked.setReg .rsp (m.regs .rsp - 8)).setReg tid (m.regs tid)).setReg .rsp
            (m.regs .rsp)).setReg bid (m.regs bid) := by
        change (Instr.pop bid).exec ((Instr.pop tid).exec checked) = _
        rw [poppedTid]
        refine pop_pushed ?_ ?_
        · rw [setReg_other _ _ tidStack.symm, setReg_same]
        · change checked.mem.load _ 8 = _
          rw [only.mem]
          refine (ByteMem.load_store_disjoint _ (stack_words_apart _)).trans ?_
          exact ByteMem.load_store_same _ _ (m.regs bid).isLt
      refine ⟨fun reg notBid notTid => ?_, ?_, ?_⟩
      · change (run [.pop tid, .pop bid] checked).regs reg = _
        rw [poppedBid, setReg_other _ _ notBid]
        by_cases isStack : reg = .rsp
        · rw [isStack, setReg_same]
        · rw [setReg_other _ _ isStack, setReg_other _ _ notTid, setReg_other _ _ isStack,
            only.regs reg notBid notTid]
          exact (setReg_other _ _ isStack).trans (setReg_other _ _ isStack)
      · change (run [.pop tid, .pop bid] checked).regs bid = m.regs bid
        rw [poppedBid, setReg_same]
      · change (run [.pop tid, .pop bid] checked).regs tid = m.regs tid
        rw [poppedBid, setReg_other _ _ bidTid.symm, setReg_other _ _ tidStack, setReg_same]

end Spills

section Loads

open BranchSite

variable {site : BranchSite} {effect : Effect} {target : Reg} {start : Machine}
  {front between : List MachineInstr} {src : MemOperand}

theorem splitDef_eq_none {code : List MachineInstr} (split : splitDef target code = none) :
    ∀ instr ∈ code, target ∉ instr.defs := by
  induction code with
  | nil => exact fun _ never => nomatch never
  | cons instr rest inductionHypothesis =>
      rw [splitDef] at split
      cases later : splitDef target rest with
      | some found => simp [later] at split
      | none =>
          simp only [later, ite_eq_right_iff, reduceCtorEq, imp_false] at split
          intro other listed
          rcases List.mem_cons.mp listed with rfl | inRest
          · exact split
          · exact inductionHypothesis later other inRest

theorem splitDef_spec {code : List MachineInstr} {found : MachineInstr}
    (split : splitDef target code = some (front, found, between)) :
    code = front ++ found :: between ∧ target ∈ found.defs ∧
      ∀ instr ∈ between, target ∉ instr.defs := by
  induction code generalizing front with
  | nil => exact nomatch split
  | cons instr rest inductionHypothesis =>
      rw [splitDef] at split
      cases later : splitDef target rest with
      | some parts =>
          obtain ⟨laterFront, laterFound, laterBetween⟩ := parts
          simp only [later, Option.some.injEq, Prod.mk.injEq] at split
          obtain ⟨rfl, rfl, rfl⟩ := split
          obtain ⟨shape, defined, undefined⟩ := inductionHypothesis later
          exact ⟨congrArg (instr :: ·) shape, defined, undefined⟩
      | none =>
          simp only [later, Option.ite_none_right_eq_some, Option.some.injEq,
            Prod.mk.injEq] at split
          obtain ⟨defined, rfl, rfl, rfl⟩ := split
          exact ⟨rfl, defined, splitDef_eq_none later⟩

/-- The load that is replaced defines the target last. -/
theorem targetLoad_spec (replaced : site.targetLoad = some (front, src, between)) :
    site.target = .reg site.checkRegs.target ∧
      site.code = front ++ .mov64rm site.checkRegs.target src :: between ∧
      ∀ instr ∈ between, site.checkRegs.target ∉ instr.defs := by
  rw [targetLoad.eq_def] at replaced
  cases isTarget : site.target with
  | mem operand => simp [isTarget] at replaced
  | reg target =>
      have chosen : site.checkRegs.target = target := by
        rw [checkRegs, isTarget]
        exact chooseIDRegs_target _ _
      rw [chosen]
      refine ⟨rfl, ?_⟩
      simp only [isTarget] at replaced
      cases inBlock : splitDef target site.block with
      | some parts =>
          obtain ⟨blockFront, found, blockBetween⟩ := parts
          cases found with
          | other => simp [inBlock] at replaced
          | mov64rm dst operand =>
              simp only [inBlock, Option.some.injEq, Prod.mk.injEq] at replaced
              obtain ⟨rfl, rfl, rfl⟩ := replaced
              obtain ⟨shape, defined, undefined⟩ := splitDef_spec inBlock
              obtain rfl := List.mem_singleton.mp defined
              refine ⟨?_, undefined⟩
              rw [code, shape, List.append_assoc]
      | none =>
          cases inPred : splitDef target site.predCode with
          | none => simp [inBlock, inPred] at replaced
          | some parts =>
              obtain ⟨predFront, found, predBetween⟩ := parts
              cases found with
              | other => simp [inBlock, inPred] at replaced
              | mov64rm dst operand =>
                  simp only [inBlock, inPred, Option.some.injEq, Prod.mk.injEq] at replaced
                  obtain ⟨rfl, rfl, rfl⟩ := replaced
                  obtain ⟨shape, defined, undefined⟩ := splitDef_spec inPred
                  obtain rfl := List.mem_singleton.mp defined
                  refine ⟨?_, fun instr listed => ?_⟩
                  · rw [code, shape, List.append_assoc, List.cons_append]
                  · rcases List.mem_append.mp listed with early | late
                    · exact undefined instr early
                    · exact splitDef_eq_none inBlock instr late

theorem runCode_append (first second : List MachineInstr) (m : Machine) :
    runCode effect (first ++ second) m = runCode effect second (runCode effect first m) :=
  List.foldl_append

theorem runEmitted_append (first second : List EmittedInstr) (m : Machine) :
    runEmitted effect (first ++ second) m =
      runEmitted effect second (runEmitted effect first m) :=
  List.foldl_append

theorem runEmitted_original (code : List MachineInstr) (m : Machine) :
    runEmitted effect (code.map .original) m = runCode effect code m :=
  List.foldl_map

/-- A register that no instruction changes keeps its value. -/
theorem runCode_frame (interprets : Interprets effect) {code : List MachineInstr}
    {reg : Reg} (unchanged : ∀ instr ∈ code, reg ∉ instr.defs ∧ reg ∉ instr.clobbers)
    (m : Machine) : (runCode effect code m).regs reg = m.regs reg := by
  induction code generalizing m with
  | nil => rfl
  | cons instr rest inductionHypothesis =>
      obtain ⟨notDef, notClobber⟩ := unchanged instr List.mem_cons_self
      have step : (instr.exec effect m).regs reg = m.regs reg := by
        cases instr with
        | mov64rm dst src =>
            exact setReg_other _ _ fun same => notDef (same ▸ List.mem_cons_self)
        | other => exact interprets.frame _ m reg notDef notClobber
      exact (inductionHypothesis (fun other listed =>
        unchanged other (List.mem_cons_of_mem _ listed)) _).trans step

theorem setReg_comm (m : Machine) {first second : Reg} (differ : first ≠ second)
    (value other : BitVec 64) :
    (m.setReg first value).setReg second other =
      (m.setReg second other).setReg first value := by
  simp only [Machine.setReg]
  congr 1
  funext reg
  by_cases isFirst : reg = first
  · rw [if_neg (isFirst ▸ differ), if_pos isFirst, if_pos isFirst]
  · rw [if_neg isFirst, if_neg isFirst]

/-- The address of an operand that does not name a register. -/
theorem addr_setReg {operand : MemOperand} {reg : Reg} (m : Machine) (value : BitVec 64)
    (unnamed : reg ∉ operand.base.toList ++ operand.index.toList) :
    (m.setReg reg value).addr operand = m.addr operand := by
  have other : ∀ name : Option Reg, reg ∉ name.toList →
      (m.setReg reg value).regOr name = m.regOr name := by
    intro name absent
    cases name with
    | none => rfl
    | some named =>
        exact setReg_other _ _ fun same => absent (same ▸ List.mem_cons_self)
  rw [List.mem_append, not_or] at unnamed
  simp only [Machine.addr, other _ unnamed.1, other _ unnamed.2]
  rfl

/-- A register that no instruction names can be set before or behind them. -/
theorem runCode_setReg (interprets : Interprets effect) {code : List MachineInstr}
    {reg : Reg} (unnamed : ∀ instr ∈ code,
      reg ∉ instr.uses ∧ reg ∉ instr.defs ∧ reg ∉ instr.clobbers)
    (m : Machine) (value : BitVec 64) :
    runCode effect code (m.setReg reg value) = (runCode effect code m).setReg reg value := by
  induction code generalizing m with
  | nil => rfl
  | cons instr rest inductionHypothesis =>
      obtain ⟨notUsed, notDef, notClobber⟩ := unnamed instr List.mem_cons_self
      have step : instr.exec effect (m.setReg reg value) =
          (instr.exec effect m).setReg reg value := by
        cases instr with
        | mov64rm dst src =>
            have differ : reg ≠ dst := fun same => notDef (same ▸ List.mem_cons_self)
            simp only [MachineInstr.exec, Instr.exec, addr_setReg m value notUsed]
            exact setReg_comm m differ value _
        | other => exact interprets.reads _ m reg value notUsed notDef notClobber
      change runCode effect rest (instr.exec effect (m.setReg reg value)) = _
      rw [step, inductionHypothesis (fun other listed =>
        unnamed other (List.mem_cons_of_mem _ listed))]
      rfl

/-- The load that replaces one leaves the low half in the target. -/
theorem mov32rm_exec (dst : Reg) (src : MemOperand) (m : Machine) :
    (EmittedInstr.mov32rm dst src).exec effect m =
      (MachineInstr.exec effect (.mov64rm dst src) m).setReg dst
        (truncated ((MachineInstr.exec effect (.mov64rm dst src) m).regs dst)) := by
  simp only [EmittedInstr.exec, MachineInstr.exec, Instr.exec, setReg_same, load_truncated]
  simp only [Machine.setReg]
  congr 1
  funext reg
  by_cases same : reg = dst
  · rw [if_pos same, if_pos same]
  · rw [if_neg same, if_neg same, if_neg same]

/-- The emitted code up to somewhere behind the replaced load. -/
theorem emittedCode_take_behind {rest : List MachineInstr}
    (replaced : site.targetLoad = some (front, src, between ++ rest)) :
    site.emittedCode.take (front ++ .mov64rm site.checkRegs.target src :: between).length =
      front.map .original ++ .mov32rm site.checkRegs.target src :: between.map .original := by
  rw [emittedCode, replaced]
  simp only [List.map_append]
  rw [← List.cons_append, ← List.append_assoc]
  apply List.take_left'
  simp

/-- The emitted code in front of an instruction: the same, or with the load replaced. -/
theorem emittedCode_take {early rest : List MachineInstr}
    (shape : site.code = early ++ rest) :
    site.emittedCode.take early.length = early.map .original ∨
      ∃ front src between, site.targetLoad = some (front, src, between ++ rest) ∧
        early = front ++ .mov64rm site.checkRegs.target src :: between := by
  cases replaced : site.targetLoad with
  | none =>
      left
      rw [emittedCode, replaced]
      simp only [shape, List.map_append]
      exact List.take_left' (List.length_map _)
  | some parts =>
      obtain ⟨front, src, between⟩ := parts
      obtain ⟨-, whole, -⟩ := targetLoad_spec replaced
      rw [shape] at whole
      rcases List.append_eq_append_iff.mp whole with ⟨more, rfl, -⟩ | ⟨more, rfl, behind⟩
      · left
        rw [emittedCode, replaced]
        simp only [List.map_append, List.append_assoc]
        exact List.take_left' (List.length_map _)
      · cases more with
        | nil =>
            left
            rw [emittedCode, replaced]
            simp only [List.append_nil]
            exact List.take_left' (List.length_map _)
        | cons load inFront =>
            rw [List.cons_append, List.cons.injEq] at behind
            obtain ⟨rfl, rfl⟩ := behind
            exact .inr ⟨front, src, inFront, rfl, rfl⟩

/-- What the replaced load changes, while no instruction names the target. -/
theorem runEmitted_replaced (m : Machine) :
    runEmitted effect (front.map .original ++ .mov32rm target src :: between.map .original) m =
      runCode effect between
        ((runCode effect (front ++ [.mov64rm target src]) m).setReg target
          (truncated ((runCode effect (front ++ [.mov64rm target src]) m).regs target))) := by
  rw [runEmitted_append, runEmitted_original, runCode_append]
  change runEmitted effect (between.map .original)
    ((EmittedInstr.mov32rm target src).exec effect _) = _
  rw [runEmitted_original, mov32rm_exec]
  rfl

theorem runCode_load (m : Machine) :
    runCode effect (front ++ .mov64rm target src :: between) m =
      runCode effect between (runCode effect (front ++ [.mov64rm target src]) m) := by
  rw [← runCode_append, List.append_assoc]
  rfl

/-- While no instruction names the target, the replaced load changes the target only. -/
theorem runEmitted_unnamed (interprets : Interprets effect)
    (unnamed : ∀ instr ∈ between,
      target ∉ instr.uses ∧ target ∉ instr.defs ∧ target ∉ instr.clobbers) (m : Machine) :
    runEmitted effect (front.map .original ++ .mov32rm target src :: between.map .original) m =
      (runCode effect (front ++ .mov64rm target src :: between) m).setReg target
        (truncated ((runCode effect (front ++ .mov64rm target src :: between) m).regs
          target)) := by
  have loaded : runCode effect (front ++ .mov64rm target src :: between) m = _ :=
    runCode_load m
  rw [runEmitted_replaced, runCode_setReg interprets unnamed, loaded,
    runCode_frame interprets fun instr listed => (unnamed instr listed).2]

end Loads

section Preservation

open BranchSite

variable {site : BranchSite} {effect : Effect} {start branching : Machine}

theorem BranchSite.Separate.unnamed (separate : site.Separate)
    {front between : List MachineInstr} {src : MemOperand}
    (replaced : site.targetLoad = some (front, src, between)) :
    ∀ instr ∈ between, site.checkRegs.target ∉ instr.uses ∧
      site.checkRegs.target ∉ instr.defs ∧ site.checkRegs.target ∉ instr.clobbers := by
  obtain ⟨-, -, undefined⟩ := targetLoad_spec replaced
  intro instr listed
  have named := separate.between _ _ _ replaced instr listed
  exact ⟨named.1, undefined instr listed, named.2⟩

/-- In front of an instruction, the replaced load has changed the target at most. -/
theorem BranchSite.Separate.runEmitted_take (separate : site.Separate)
    (interprets : Interprets effect) {early rest : List MachineInstr}
    (shape : site.code = early ++ rest) (start : Machine) :
    runEmitted effect (site.emittedCode.take early.length) start =
        runCode effect early start ∨
      (∃ front src between, site.targetLoad = some (front, src, between ++ rest) ∧
        front.length < early.length) ∧
      runEmitted effect (site.emittedCode.take early.length) start =
        (runCode effect early start).setReg site.checkRegs.target
          (truncated ((runCode effect early start).regs site.checkRegs.target)) := by
  rcases emittedCode_take shape with same | ⟨front, src, between, replaced, rfl⟩
  · left
    rw [same, runEmitted_original]
  · refine .inr ⟨⟨front, src, between, replaced, ?_⟩, ?_⟩
    · simp
    · rw [emittedCode_take_behind replaced]
      exact runEmitted_unnamed interprets
        (fun instr listed => separate.unnamed replaced instr (List.mem_append_left _ listed))
        start

/-- At the check, the target register holds the truncated target. -/
theorem BranchSite.Separate.truncation_eq (separate : site.Separate)
    (interprets : Interprets effect) (start : Machine) :
    run site.truncation (runEmitted effect site.emittedCode start) =
      (runCode effect site.code start).setReg site.checkRegs.target
        (truncated (site.target.address (runCode effect site.code start))) := by
  cases replaced : site.targetLoad with
  | none =>
      have same : runEmitted effect site.emittedCode start =
          runCode effect site.code start := by
        rw [emittedCode, replaced]
        exact runEmitted_original _ _
      rw [same]
      generalize runCode effect site.code start = m
      rcases site.checkRegs_cases with ⟨target, isTarget, chosen⟩ |
        ⟨operand, target, left, isTarget, -, chosen⟩
      · have code : site.truncation = [.mov32 target target] := by
          rw [truncation, isTarget, replaced]
        rw [code, chosen, chooseIDRegs_target, isTarget]
        rfl
      · have code : site.truncation = [.load32 target operand] := by
          rw [truncation, isTarget, chosen, chooseIDRegs_target]
        rw [code, chosen, chooseIDRegs_target, isTarget]
        change m.setReg target (BitVec.ofNat 64 (m.mem.load (m.addr operand) 4)) = _
        rw [load_truncated]
        rfl
  | some parts =>
      obtain ⟨front, src, between⟩ := parts
      obtain ⟨isTarget, shape, -⟩ := targetLoad_spec replaced
      have code : site.truncation = [] := by
        rw [truncation, isTarget, replaced]
      have address (m : Machine) :
          site.target.address m = m.regs site.checkRegs.target := by
        rw [isTarget]
        rfl
      rw [code, address, emittedCode, replaced, shape]
      exact runEmitted_unnamed interprets (separate.unnamed replaced) start

/-- Separate operands are enough. -/
theorem BranchSite.Separate.preserved (separate : site.Separate) : site.Preserved where
  distinct := ⟨separate.apart.bidTid, separate.apart.bidTarget, separate.apart.tidTarget⟩
  transfers := by
    rintro effect interprets start branching ⟨checked, passes, rfl⟩
    have apart := separate.apart
    rw [run_append, separate.truncation_eq interprets] at passes
    obtain ⟨others, bid, tid⟩ := passes.onlyIDs.pops_restore apart
    refine ⟨?_, fun reg listed => ?_⟩
    · rw [others _ apart.bidTarget.symm apart.tidTarget.symm, setReg_same]
    · have notTarget : reg ≠ site.checkRegs.target := fun same => apart.target (same ▸ listed)
      by_cases isBid : reg = site.checkRegs.bid
      · have spilled : site.checkRegs.bidSpill = true := by
          by_contra free
          exact apart.bid (Bool.eq_false_of_not_eq_true free) (isBid ▸ listed)
        rw [isBid, bid, if_pos spilled, setReg_other _ _ (isBid ▸ notTarget)]
      · by_cases isTid : reg = site.checkRegs.tid
        · have spilled : site.checkRegs.tidSpill = true := by
            by_contra free
            exact apart.tid (Bool.eq_false_of_not_eq_true free) (isTid ▸ listed)
          rw [isTid, tid, if_pos spilled, setReg_other _ _ (isTid ▸ notTarget)]
        · rw [others reg isBid isTid, setReg_other _ _ notTarget]
  uses := by
    intro effect interprets start early instr late shape reg used
    rcases separate.runEmitted_take interprets shape start with
      same | ⟨⟨front, src, between, replaced, -⟩, emitted⟩
    · rw [same]
    · have notUsed := (separate.between _ _ _ replaced instr
        (List.mem_append_right _ List.mem_cons_self)).1
      have differ : reg ≠ site.checkRegs.target := fun same => notUsed (same ▸ used)
      rw [emitted, setReg_other _ _ differ]
  liveIns := by
    intro effect interprets start reg live
    rcases separate.runEmitted_take interprets
      (show site.code = site.predCode ++ site.block from rfl) start with
      same | ⟨⟨front, src, between, replaced, inPred⟩, emitted⟩
    · rw [same]
    · have notLive := separate.liveIns _ _ _ replaced inPred
      have differ : reg ≠ site.checkRegs.target := fun same => notLive (same ▸ live)
      rw [emitted, setReg_other _ _ differ]

/-- Instructions that leave a large number in every register they change. -/
def fillsRegisters (instr : MachineInstr) (m : Machine) : Machine :=
  { m with
    regs := fun reg =>
      if reg ∈ instr.defs ∨ reg ∈ instr.clobbers then 0x8000000000000000 else m.regs reg }

theorem fillsRegisters_interprets : Interprets fillsRegisters where
  frame _ _ _ notDef notClobber := if_neg fun either => either.elim notDef notClobber
  reads instr m reg value _ notDef notClobber := by
    simp only [fillsRegisters, Machine.setReg]
    congr 1
    funext other
    by_cases same : other = reg
    · rw [if_pos same, if_pos same,
        if_neg fun either => either.elim (same ▸ notDef) (same ▸ notClobber)]
    · rw [if_neg same, if_neg same]

/-- Large numbers in all registers, and no zero in memory. -/
structure FilledRegisters (m : Machine) : Prop where
  regs : ∀ reg, 2 ^ 32 ≤ (m.regs reg).toNat
  mem : m.mem = fun _ => 0xff

/-- A machine to start with. -/
def filledMachine : Machine where
  regs _ := 0x8000000000000000
  xmm _ := 0
  mxcsr := 0
  fcw := 0
  segmentBase _ := 0
  zf := false
  mem _ := 0xff

theorem load_filled {m : Machine} (filled : FilledRegisters m) (addr : Nat) :
    BitVec.ofNat 64 (m.mem.load addr 8) = 0xffffffffffffffff := by
  rw [filled.mem]
  simp only [ByteMem.load]
  decide

theorem FilledRegisters.exec {m : Machine} (filled : FilledRegisters m) (instr : MachineInstr) :
    FilledRegisters (instr.exec fillsRegisters m) := by
  cases instr with
  | mov64rm dst src =>
      refine ⟨fun reg => ?_, filled.mem⟩
      by_cases same : reg = dst
      · rw [same, MachineInstr.exec, Instr.exec, setReg_same, load_filled filled]
        decide
      · rw [MachineInstr.exec, Instr.exec, setReg_other _ _ same]
        exact filled.regs reg
  | other opcode uses defs clobbers =>
      refine ⟨fun reg => ?_, filled.mem⟩
      simp only [MachineInstr.exec, fillsRegisters]
      split
      · decide
      · exact filled.regs reg

theorem filled_runCode (code : List MachineInstr) {m : Machine} (filled : FilledRegisters m) :
    FilledRegisters (runCode fillsRegisters code m) := by
  induction code generalizing m with
  | nil => exact filled
  | cons instr rest inductionHypothesis => exact inductionHypothesis (filled.exec instr)

theorem filledMachine_filled : FilledRegisters filledMachine :=
  ⟨fun _ => show 2 ^ 32 ≤ (0x8000000000000000 : BitVec 64).toNat by decide, rfl⟩

theorem truncated_ne {value : BitVec 64} (large : 2 ^ 32 ≤ value.toNat) :
    truncated value ≠ value := by
  intro same
  have low := truncated_lt value
  rw [same] at low
  omega

/-- A register that is clobbered holds the large number in the end. -/
theorem runCode_clobbered {code : List MachineInstr} {reg : Reg}
    (undefined : ∀ instr ∈ code, reg ∉ instr.defs)
    (clobbered : ∃ instr ∈ code, reg ∈ instr.clobbers) (m : Machine) :
    (runCode fillsRegisters code m).regs reg = 0x8000000000000000 := by
  have step : ∀ (instr : MachineInstr) (m : Machine), reg ∉ instr.defs →
      reg ∈ instr.clobbers ∨ m.regs reg = 0x8000000000000000 →
        (instr.exec fillsRegisters m).regs reg = 0x8000000000000000 := by
    intro instr m notDef either
    cases instr with
    | mov64rm dst src =>
        have differ : reg ≠ dst := fun same => notDef (same ▸ List.mem_cons_self)
        rcases either with never | held
        · exact nomatch never
        · exact (setReg_other _ _ differ).trans held
    | other opcode uses defs clobbers =>
        simp only [MachineInstr.exec, fillsRegisters]
        split
        · rfl
        · rename_i unchanged
          rcases either with clobbered | held
          · exact absurd (.inr clobbered) unchanged
          · exact held
  have stays : ∀ (code : List MachineInstr) (m : Machine),
      (∀ instr ∈ code, reg ∉ instr.defs) → m.regs reg = 0x8000000000000000 →
        (runCode fillsRegisters code m).regs reg = 0x8000000000000000 := by
    intro code
    induction code with
    | nil => exact fun _ _ held => held
    | cons instr rest inductionHypothesis =>
        intro m undefined held
        exact inductionHypothesis _
          (fun other listed => undefined other (List.mem_cons_of_mem _ listed))
          (step instr m (undefined instr List.mem_cons_self) (.inr held))
  obtain ⟨instr, listed, clobbers⟩ := clobbered
  obtain ⟨early, late, rfl⟩ := List.append_of_mem listed
  rw [runCode_append]
  exact stays late _
    (fun other inLate => undefined other
      (List.mem_append_right _ (List.mem_cons_of_mem _ inLate)))
    (step instr _ (undefined instr listed) (.inl clobbers))

/-- FilledRegisters registers show what a branch does not preserve. -/
theorem BranchSite.Preserved.filled (preserved : site.Preserved) :
    ∃ checked, site.checkRegs.Passes site.barySlot
        (run (site.truncation ++ site.checkRegs.pushes)
          (runEmitted fillsRegisters site.emittedCode filledMachine)) checked ∧
      checked.regs site.checkRegs.bid = 0 ∧ checked.regs site.checkRegs.tid = 0 ∧
      (∃ value, (run site.checkRegs.pops checked).regs site.checkRegs.target =
        truncated value) ∧
      ∀ reg ∈ site.kept, 2 ^ 32 ≤ ((run site.checkRegs.pops checked).regs reg).toNat := by
  obtain ⟨checked, passes, bid, tid⟩ := site.checkRegs.exists_passes site.barySlot
    (run (site.truncation ++ site.checkRegs.pushes)
      (runEmitted fillsRegisters site.emittedCode filledMachine))
  obtain ⟨target, kept⟩ := preserved.transfers fillsRegisters fillsRegisters_interprets
    filledMachine _ ⟨checked, passes, rfl⟩
  refine ⟨checked, passes, bid, tid, ⟨_, target⟩, fun reg listed => ?_⟩
  rw [kept reg listed]
  exact (filled_runCode site.code filledMachine_filled).regs reg

/-- A check that preserves a branch uses registers that do no harm. -/
theorem BranchSite.Preserved.apart (preserved : site.Preserved) :
    site.checkRegs.Apart site.kept := by
  obtain ⟨bidTid, bidTarget, tidTarget⟩ := preserved.distinct
  have stack : site.checkRegs.bid ≠ .rsp ∧ site.checkRegs.tid ≠ .rsp ∧
      (site.checkRegs.bidSpill = true → site.checkRegs.tidSpill = true) := by
    have free := site.rsp_not_mem_scratchRegs
    rcases site.checkRegs_cases with ⟨target, -, chosen⟩ |
      ⟨operand, target, left, -, shape, chosen⟩
    · rw [chosen]
      exact chooseIDRegs_stack free
    · rw [chosen]
      exact chooseIDRegs_stack fun listed => free (shape ▸ List.mem_cons_of_mem _ listed)
  have alone : site.checkRegs.Apart [] :=
    ⟨bidTid, bidTarget, tidTarget, stack.1, stack.2.1, (fun never => nomatch never),
      (fun _ never => nomatch never), (fun _ never => nomatch never), stack.2.2⟩
  obtain ⟨checked, passes, bid, tid, ⟨value, target⟩, kept⟩ := preserved.filled
  rw [run_append] at passes
  obtain ⟨-, bidHolds, tidHolds⟩ := passes.onlyIDs.pops_restore alone
  refine {
    alone with
    target := fun listed => ?_
    bid := fun free listed => ?_
    tid := fun free listed => ?_
  }
  · have large := kept _ listed
    rw [target] at large
    have low := truncated_lt value
    omega
  · have large := kept _ listed
    rw [bidHolds, free, if_neg Bool.false_ne_true, bid] at large
    exact absurd large (by decide)
  · have large := kept _ listed
    rw [tidHolds, free, if_neg Bool.false_ne_true, tid] at large
    exact absurd large (by decide)

/-- Behind the replaced load the target differs, unless an instruction clobbers it. -/
theorem replaced_differs {front between rest : List MachineInstr} {src : MemOperand}
    (replaced : site.targetLoad = some (front, src, between ++ rest))
    (kept : ∀ instr ∈ between, site.checkRegs.target ∉ instr.clobbers) :
    (runEmitted fillsRegisters (site.emittedCode.take
      (front ++ .mov64rm site.checkRegs.target src :: between).length) filledMachine).regs
        site.checkRegs.target ≠
      (runCode fillsRegisters (front ++ .mov64rm site.checkRegs.target src :: between)
        filledMachine).regs site.checkRegs.target := by
  obtain ⟨-, -, undefined⟩ := targetLoad_spec replaced
  have unchanged : ∀ instr ∈ between, site.checkRegs.target ∉ instr.defs ∧
      site.checkRegs.target ∉ instr.clobbers := fun instr listed =>
    ⟨undefined instr (List.mem_append_left _ listed), kept instr listed⟩
  have loaded : runCode fillsRegisters
      (front ++ .mov64rm site.checkRegs.target src :: between) filledMachine = _ :=
    runCode_load filledMachine
  rw [emittedCode_take_behind replaced, runEmitted_replaced, loaded,
    runCode_frame fillsRegisters_interprets unchanged,
    runCode_frame fillsRegisters_interprets unchanged, setReg_same]
  exact truncated_ne ((filled_runCode _ filledMachine_filled).regs _)

/-- No instruction between the replaced load and a preserved branch clobbers the target. -/
theorem BranchSite.Preserved.notClobbered (preserved : site.Preserved)
    {front between : List MachineInstr} {src : MemOperand}
    (replaced : site.targetLoad = some (front, src, between)) :
    ∀ instr ∈ between, site.checkRegs.target ∉ instr.clobbers := by
  intro instr listed clobbers
  obtain ⟨isTarget, -, undefined⟩ := targetLoad_spec replaced
  obtain ⟨checked, passes, -, -, ⟨value, target⟩, -⟩ := preserved.filled
  have apart := preserved.apart
  have code : site.truncation = [] := by
    rw [truncation, isTarget, replaced]
  have large : (runEmitted fillsRegisters site.emittedCode filledMachine).regs
      site.checkRegs.target = 0x8000000000000000 := by
    rw [emittedCode, replaced]
    simp only [runEmitted_replaced]
    exact runCode_clobbered undefined ⟨instr, listed, clobbers⟩ _
  rw [code, List.nil_append] at passes
  rw [(passes.onlyIDs.pops_restore apart).1 _ apart.bidTarget.symm apart.tidTarget.symm,
    large] at target
  have low := truncated_lt value
  rw [← target] at low
  exact absurd low (by decide)

theorem BranchSite.Preserved.operandsFree (preserved : site.Preserved) :
    ∀ use ∈ site.operands, use.reg ∉ site.scratchRegs.take site.needed := by
  intro use listed first
  have apart := preserved.apart
  -- one of the first two is used for an ID, without a spill
  have taken {target : Reg} {left : List Reg}
      (chosen : site.checkRegs = chooseIDRegs target left) (kept : use.reg ∈ site.kept) :
      use.reg ∉ left.take 2 := by
    intro inFront
    rcases mem_take_chooseIDRegs inFront with ⟨unspilled, isBid⟩ | ⟨unspilled, isTid⟩
    · rw [← chosen] at unspilled isBid
      exact apart.bid unspilled (isBid ▸ kept)
    · rw [← chosen] at unspilled isTid
      exact apart.tid unspilled (isTid ▸ kept)
  rcases site.checkRegs_cases with ⟨target, isTarget, chosen⟩ |
    ⟨operand, target, left, isTarget, shape, chosen⟩
  · simp only [operands, targetOperands, needed, isTarget] at listed first
    rcases List.mem_cons.mp listed with rfl | isUse
    · have same : site.checkRegs.target = target := chosen ▸ chooseIDRegs_target _ _
      rcases mem_take_chooseIDRegs first with ⟨-, isBid⟩ | ⟨-, isTid⟩
      · exact apart.bidTarget (same.symm ▸ chosen ▸ isBid.symm)
      · exact apart.tidTarget (same.symm ▸ chosen ▸ isTid.symm)
    · refine taken chosen ?_ first
      rw [kept, isTarget]
      exact List.mem_cons_of_mem _ (List.mem_map_of_mem isUse)
  · have kept : use.reg ∈ site.kept := by
      rw [kept, isTarget]
      exact List.mem_cons_of_mem _ (List.mem_map_of_mem listed)
    simp only [needed, isTarget, shape] at first
    rcases List.mem_cons.mp first with isTarget | inFront
    · have same : site.checkRegs.target = target := chosen ▸ chooseIDRegs_target _ _
      exact apart.target (same.symm ▸ isTarget ▸ kept)
    · exact taken chosen kept inFront

/-- A branch that is preserved has separate operands. -/
theorem BranchSite.Preserved.separate (preserved : site.Preserved) : site.Separate where
  operands := preserved.operandsFree
  target := by
    intro reg isTarget listed
    have chosen : site.checkRegs.target = reg := by
      rw [checkRegs, isTarget]
      exact chooseIDRegs_target _ _
    exact preserved.apart.target (chosen.symm ▸ listed)
  between := by
    intro front src between replaced instr listed
    have kept := preserved.notClobbered replaced
    refine ⟨fun used => ?_, kept instr listed⟩
    obtain ⟨early, late, rfl⟩ := List.append_of_mem listed
    obtain ⟨-, shape, -⟩ := targetLoad_spec replaced
    rw [← List.cons_append, ← List.append_assoc] at shape
    exact replaced_differs replaced
      (fun other inEarly => kept other (List.mem_append_left _ inEarly))
      (preserved.uses fillsRegisters fillsRegisters_interprets filledMachine _ instr late
        shape _ used)
  liveIns := by
    intro front src between replaced inPred live
    have kept := preserved.notClobbered replaced
    obtain ⟨-, shape, -⟩ := targetLoad_spec replaced
    obtain ⟨early, isPred, rfl⟩ : ∃ early,
        site.predCode = front ++ .mov64rm site.checkRegs.target src :: early ∧
          between = early ++ site.block := by
      rw [code] at shape
      rcases List.append_eq_append_iff.mp shape with ⟨more, isFront, -⟩ | ⟨more, isPred, behind⟩
      · have lengths := congrArg List.length isFront
        rw [List.length_append] at lengths
        omega
      · cases more with
        | nil =>
            rw [isPred, List.append_nil] at inPred
            exact absurd inPred (Nat.lt_irrefl _)
        | cons load early =>
            rw [List.cons_append, List.cons.injEq] at behind
            exact ⟨early, behind.1 ▸ isPred, behind.2⟩
    have same := preserved.liveIns fillsRegisters fillsRegisters_interprets filledMachine _
      live
    rw [isPred] at same
    exact replaced_differs replaced
      (fun other inEarly => kept other (List.mem_append_left _ inEarly)) same

/--
Instrumenting an indirect branch preserves it if and only if its operands are apart from
the registers of the check and the code between the replaced load and the branch does
not name the target.
-/
theorem preserved_iff (site : BranchSite) : site.Preserved ↔ site.Separate :=
  ⟨BranchSite.Preserved.separate, BranchSite.Separate.preserved⟩

/--
A call through `r11` whose arguments leave one other register: `TIDReg` is `r11`, too.
-/
def r11Call : BranchSite where
  target := .reg .r11
  uses := [⟨.rdi, .gr64⟩, ⟨.rsi, .gr64⟩, ⟨.rdx, .gr64⟩, ⟨.rcx, .gr64⟩, ⟨.r8, .gr64⟩,
    ⟨.r9, .gr64⟩, ⟨.rax, .gr8⟩]
  block := []
  pred := none
  barySlot := 0

/-- The load of its ID would overwrite the target. -/
theorem r11Call_not_preserved : ¬ ∀ site : BranchSite, site.Preserved := by
  intro always
  exact (always r11Call).distinct.2.2 (by decide)

end Preservation

end Mcfi
