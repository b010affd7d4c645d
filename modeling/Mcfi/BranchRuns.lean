import Mcfi.BranchChecks

namespace Mcfi

open X86 Relation

/-!
# Runs through a checked function

A run is in a part of the function, where what is narrow holds less than 4 GiB, or in the
check in front of a branch, where only the registers of the IDs change.  It comes to the
branch behind a check only through the read of its target's ID.
-/

section Machines

variable {f : MachineFunction} {loads32 : List Place} {branch : Place} {regs : CheckRegs}
  {m after before : Machine} {read : BitVec 64}

/--
In front of the spills of a check, its target holds less than 4 GiB, as what is narrow in
front of the branch does.
-/
def MachineFunction.Prepared (f : MachineFunction) (loads32 : List Place) (branch : Place)
    (regs : CheckRegs) (m : Machine) : Prop :=
  ∀ reg, reg ≠ .rsp → reg = regs.target ∨ f.NarrowAt loads32 branch reg →
    (m.regs reg).toNat < 2 ^ 32

/-- Since the spills of a check, only the registers of the IDs have changed. -/
def MachineFunction.Checking (f : MachineFunction) (loads32 : List Place) (branch : Place)
    (regs : CheckRegs) (m : Machine) : Prop :=
  ∃ before, f.Prepared loads32 branch regs before ∧ OnlyIDs regs (run regs.pushes before) m

/-- What comes in front of a check makes its target narrow, and changes nothing else. -/
theorem MachineFunction.Truncates.prepared {truncation : List Instr}
    (truncates : f.Truncates loads32 branch regs truncation)
    (held : f.NarrowHeld loads32 branch before) :
    f.Prepared loads32 branch regs (run truncation before) := by
  have other : ∀ reg, reg ≠ .rsp → reg ≠ regs.target →
      (run truncation before).regs reg = before.regs reg := by
    intro reg notStack notTarget
    cases truncates with
    | narrowed => rfl
    | moved => exact setReg_other _ _ notTarget
    | loaded => exact setReg_other _ _ notTarget
    | returned =>
        exact (setReg_other _ _ notTarget).trans
          ((setReg_other _ _ notTarget).trans (setReg_other _ _ notStack))
  intro reg notStack narrow
  by_cases isTarget : reg = regs.target
  · subst isTarget
    cases truncates with
    | narrowed isNarrow => exact held _ notStack isNarrow
    | moved =>
        change ((before.setReg regs.target _).regs regs.target).toNat < 2 ^ 32
        rw [setReg_same]
        exact truncated_lt _
    | loaded src =>
        change ((before.setReg regs.target _).regs regs.target).toNat < 2 ^ 32
        rw [setReg_same]
        exact load32_lt _ _
    | returned =>
        change ((Machine.setReg _ .rcx _).regs .rcx).toNat < 2 ^ 32
        rw [setReg_same]
        exact truncated_lt _
  · rw [other reg notStack isTarget]
    exact held reg notStack (narrow.resolve_left isTarget)

/-- The spills change the stack pointer only. -/
theorem run_pushes (regs : CheckRegs) (m : Machine) {reg : Reg} (notStack : reg ≠ .rsp) :
    (run regs.pushes m).regs reg = m.regs reg := by
  have pushed : ∀ instr ∈ regs.pushes, ∃ src, instr = .push src := by
    intro instr listed
    rcases List.mem_append.mp listed with first | second
    · split at first
      · exact ⟨_, List.mem_singleton.mp first⟩
      · exact nomatch first
    · split at second
      · exact ⟨_, List.mem_singleton.mp second⟩
      · exact nomatch second
  generalize regs.pushes = code at pushed
  induction code generalizing m with
  | nil => rfl
  | cons instr rest inductionHypothesis =>
      obtain ⟨src, rfl⟩ := pushed instr List.mem_cons_self
      rw [run_cons, inductionHypothesis _ fun instr listed =>
        pushed instr (List.mem_cons_of_mem _ listed)]
      exact setReg_other _ _ notStack

/-- The target holds less than 4 GiB in the check. -/
theorem MachineFunction.Checking.target_lt {kept : List Reg}
    (checking : f.Checking loads32 branch regs m) (apart : regs.Apart kept)
    (notStack : regs.target ≠ .rsp) : (m.regs regs.target).toNat < 2 ^ 32 := by
  obtain ⟨before, prepared, only⟩ := checking
  rw [only.regs _ apart.bidTarget.symm apart.tidTarget.symm, run_pushes regs before notStack]
  exact prepared _ notStack (.inl rfl)

/-- An instruction of a check in front of the branch, behind which the check goes on. -/
theorem MachineFunction.Checking.instr {effect : Effect} {kind : CheckBlock}
    {mbb : MachineBasicBlock} {moduleID : BitVec 64} {inst : PassInst} {place : Place}
    (checking : f.Checking loads32 branch regs m)
    (isBlock : BlockOf f moduleID branch regs mbb kind) (notBranch : kind ≠ .icj)
    (notReport : kind ≠ .report) (listed : inst ∈ mbb.code)
    (executes : inst.Executes effect loads32 place m after) :
    f.Checking loads32 branch regs after ∧
      ∀ reg, reg ≠ regs.bid → reg ≠ regs.tid → after.regs reg = m.regs reg := by
  have only : OnlyIDs regs m after := by
    cases kind with
    | icj => exact absurd rfl notBranch
    | report => exact absurd rfl notReport
    | idCmp =>
        obtain ⟨barySlot, rfl⟩ := isBlock
        simp only [mcfiX64IDCmp, List.mem_cons, List.not_mem_nil, or_false] at listed
        rcases listed with rfl | rfl | rfl | rfl
        · obtain ⟨⟩ := executes
          exact ⟨rfl, fun reg notBid _ => setReg_other _ _ notBid⟩
        · obtain ⟨⟩ := executes
          exact ⟨rfl, fun reg _ notTid => setReg_other _ _ notTid⟩
        · obtain ⟨⟩ := executes
          exact ⟨rfl, fun _ _ _ => rfl⟩
        · obtain ⟨⟩ := executes
          exact ⟨rfl, fun _ _ _ => rfl⟩
    | interopCheck =>
        obtain rfl := isBlock
        simp only [mcfiX64InteropCheck, List.mem_cons, List.not_mem_nil, or_false] at listed
        rcases listed with rfl | rfl
        · obtain ⟨⟩ := executes
          exact ⟨rfl, fun _ _ _ => rfl⟩
        · obtain ⟨⟩ := executes
          exact ⟨rfl, fun _ _ _ => rfl⟩
    | idValidityCheck =>
        obtain rfl := isBlock
        simp only [mcfiX64IDValidityCheck, List.mem_cons, List.not_mem_nil, or_false] at listed
        rcases listed with rfl | rfl
        · obtain ⟨⟩ := executes
          exact ⟨rfl, fun _ _ _ => rfl⟩
        · obtain ⟨⟩ := executes
          exact ⟨rfl, fun _ _ _ => rfl⟩
    | verCheck =>
        obtain rfl := isBlock
        simp only [mcfiX64IDVersionCheck, List.mem_cons, List.not_mem_nil, or_false] at listed
        rcases listed with rfl | rfl
        · obtain ⟨⟩ := executes
          exact ⟨rfl, fun _ _ _ => rfl⟩
        · obtain ⟨⟩ := executes
          exact ⟨rfl, fun _ _ _ => rfl⟩
  obtain ⟨before, prepared, since⟩ := checking
  exact ⟨⟨before, prepared, only.mem.trans since.mem, fun reg notBid notTid =>
    (only.regs reg notBid notTid).trans (since.regs reg notBid notTid)⟩, only.regs⟩

/-- The reloads are of the registers of the IDs. -/
theorem CheckRegs.mem_pops {instr : Instr} (listed : instr ∈ regs.pops) :
    instr = .pop regs.tid ∨ instr = .pop regs.bid := by
  rcases List.mem_append.mp listed with first | second
  · split at first
    · exact .inl (List.mem_singleton.mp first)
    · exact nomatch first
  · split at second
    · exact .inr (List.mem_singleton.mp second)
    · exact nomatch second

/-- A reload changes a register of the IDs and the stack pointer. -/
theorem CheckRegs.pop_other {instr : Instr} {reg : Reg} (listed : instr ∈ regs.pops)
    (notStack : reg ≠ .rsp) (notBid : reg ≠ regs.bid) (notTid : reg ≠ regs.tid) :
    (instr.exec m).regs reg = m.regs reg := by
  rcases regs.mem_pops listed with rfl | rfl
  · exact (setReg_other _ _ notTid).trans (setReg_other _ _ notStack)
  · exact (setReg_other _ _ notBid).trans (setReg_other _ _ notStack)

end Machines

section Neighbours

variable {first next : MachineBasicBlock} {branch : Place} {block : FunctionBlock}

/-- Over the end of a block of a check, another block of it follows. -/
theorem Adjacent.of_check {kind : CheckBlock} (adjacent : Adjacent first next)
    (isCheck : first.label = .check branch kind) (notBranch : kind ≠ .icj)
    (falls : first.falls = true) (succs : ∀ start, .part start ∉ first.succs) :
    ∃ after, next.label = .check branch after ∧ (after = .icj → kind = .idCmp) ∧
      after ≠ .interopCheck := by
  rw [Adjacent] at adjacent
  split at adjacent
  · exact absurd (adjacent falls) (succs _)
  · exact absurd (Label.check.inj (isCheck.symm.trans adjacent)).2 notBranch
  · obtain ⟨start, isPart⟩ := adjacent.1
    cases isCheck.symm.trans isPart
  · rename_i isNext
    obtain ⟨rfl, rfl⟩ := Label.check.inj (isCheck.symm.trans adjacent.1)
    exact ⟨.icj, isNext, fun _ => rfl, (by rintro ⟨⟩)⟩
  · cases falls.symm.trans adjacent
  · rename_i isNext
    obtain ⟨rfl, rfl⟩ := Label.check.inj (isCheck.symm.trans adjacent)
    exact ⟨.idValidityCheck, isNext, (by rintro ⟨⟩), (by rintro ⟨⟩)⟩
  · rename_i isNext
    obtain ⟨rfl, rfl⟩ := Label.check.inj (isCheck.symm.trans adjacent)
    exact ⟨.verCheck, isNext, (by rintro ⟨⟩), (by rintro ⟨⟩)⟩
  · rename_i isNext
    obtain ⟨rfl, rfl⟩ := Label.check.inj (isCheck.symm.trans adjacent)
    exact ⟨.report, isNext, (by rintro ⟨⟩), (by rintro ⟨⟩)⟩

/-- Over the end of a block of the function, or behind a call, the function goes on. -/
theorem Adjacent.of_function (adjacent : Adjacent first next) (falls : first.falls = true)
    (ends : (∃ start, first.label = .part start) ∨ first.label = .check branch .icj)
    (succs : ∀ place kind, .check place kind ∉ first.succs) :
    (first.label = .check branch .icj ∧ next.label = .part (branch.advance 1)) ∨
      ∃ index, next.label = .part ⟨index, 0⟩ ∧ .part ⟨index, 0⟩ ∈ first.succs := by
  have notKind : ∀ place kind, first.label = .check place kind → kind = .icj := by
    intro place kind isCheck
    rcases ends with ⟨start, isPart⟩ | isBranch
    · cases isCheck.symm.trans isPart
    · exact (Label.check.inj (isCheck.symm.trans isBranch)).2
  rw [Adjacent] at adjacent
  split at adjacent
  · rename_i isNext
    exact .inr ⟨_, isNext, adjacent falls⟩
  · rename_i isNext
    rcases ends with ⟨start, isPart⟩ | isBranch
    · cases adjacent.symm.trans isPart
    · obtain ⟨rfl, -⟩ := Label.check.inj (adjacent.symm.trans isBranch)
      exact .inl ⟨adjacent, isNext⟩
  · rename_i place _
    refine absurd ?_ (succs place .idCmp)
    rw [adjacent.2]
    exact List.mem_cons_self
  · cases notKind _ _ adjacent.1
  · cases falls.symm.trans adjacent
  · cases notKind _ _ adjacent
  · cases notKind _ _ adjacent
  · cases notKind _ _ adjacent

/-- Behind a block that ends in front of a check, the check follows. -/
theorem Adjacent.of_front {start : Place} {prepare : List Instr}
    (adjacent : Adjacent (block.front start branch prepare) next) :
    next.label = .check branch .idCmp := by
  rw [Adjacent] at adjacent
  split at adjacent
  · cases List.mem_singleton.mp (adjacent rfl)
  · cases adjacent
  · rename_i isNext
    obtain ⟨rfl, -⟩ := Label.check.inj (List.cons.inj adjacent.2).1
    exact isNext
  · cases adjacent.1
  · cases adjacent
  · cases adjacent
  · cases adjacent
  · cases adjacent

theorem FunctionBlock.labels_part (place : Place) (kind : CheckBlock) :
    .check place kind ∉ block.labels := by
  intro listed
  obtain ⟨index, -, never⟩ := List.mem_map.mp listed
  exact nomatch never

theorem Laid.follows {f : MachineFunction} {moduleID : BitVec 64} {state : PassState}
    (laid : Laid f moduleID state) (done : state.pending = [])
    (follows : [first, next] <:+: state.visited) : Adjacent first next := by
  have chain := laid.adjacent
  rw [done, List.append_nil] at chain
  have pair := chain.infix follows
  exact (List.isChain_cons_cons.mp pair).1

end Neighbours

section Situations

/--
The check in front of a branch has read the ID of its target, and the target has not
changed since.
-/
def PassState.Passed (moduleID : BitVec 64) (state : PassState) (effect : Effect)
    (entry : RunState) (branch : Place) (regs : CheckRegs) (s : RunState) : Prop :=
  ∃ barySlot m, mcfiX64IDCmp branch regs moduleID barySlot ∈ state.visited ∧
    ReflTransGen (state.Runs effect) entry
      ⟨mcfiX64IDCmp branch regs moduleID barySlot, 1, m⟩ ∧
    ReflTransGen (fun s t => state.Runs effect s t ∧ s.InCheck branch ∧ t.InCheck branch)
      ⟨mcfiX64IDCmp branch regs moduleID barySlot, 1, m⟩ s ∧
    (m.regs regs.target).toNat < 2 ^ 32 ∧ s.m.regs regs.target = m.regs regs.target

/--
Where a run through a function can be: in a part of it or behind that part, in a check, in
front of the branch behind a check, behind a call, or where a violation is reported.
-/
inductive Situation (f : MachineFunction) (moduleID : BitVec 64) (state : PassState)
    (effect : Effect) (entry : RunState) : RunState → Prop where
  | part {s : RunState} {start : Place} {block : FunctionBlock} {length : Nat}
      {prepare : List Instr} {before : Machine}
      (found : f.blocks[start.block]? = some block)
      (inside : start.index ≤ block.insts.length) (label : s.mbb.label = .part start)
      (part : PartOf f state.loads32 start block s.mbb length prepare)
      (held : f.NarrowHeld state.loads32 (start.advance (min s.index length)) before)
      (isM : s.m = run (prepare.take (s.index - length)) before) :
      Situation f moduleID state effect entry s
  | check {s : RunState} {branch : Place} {regs : CheckRegs} {kind : CheckBlock}
      (isCheck : s.mbb.label = .check branch kind) (notBranch : kind ≠ .icj)
      (notReport : kind ≠ .report) (check : f.CheckAt branch regs)
      (checking : f.Checking state.loads32 branch regs s.m)
      (passed : s.InCheck branch → state.Passed moduleID effect entry branch regs s) :
      Situation f moduleID state effect entry s
  | icj {s : RunState} {branch : Place} {regs : CheckRegs} {checked : Machine}
      (isBranch : s.mbb.label = .check branch .icj) (check : f.CheckAt branch regs)
      (checking : f.Checking state.loads32 branch regs checked)
      (reloads : s.index ≤ regs.pops.length)
      (isM : s.m = run (regs.pops.take s.index) checked)
      (passed : state.Passed moduleID effect entry branch regs s) :
      Situation f moduleID state effect entry s
  | called {s : RunState} {branch : Place} {regs : CheckRegs}
      (isBranch : s.mbb.label = .check branch .icj) (check : f.CheckAt branch regs)
      (behind : regs.pops.length < s.index)
      (held : f.NarrowHeld state.loads32 (branch.advance 1) s.m) :
      Situation f moduleID state effect entry s
  | report {s : RunState} {branch : Place} (isReport : s.mbb.label = .check branch .report) :
      Situation f moduleID state effect entry s

variable {f : MachineFunction} {moduleID : BitVec 64} {state : PassState} {effect : Effect}
  {entry s t : RunState} {branch : Place} {regs : CheckRegs} {mbb : MachineBasicBlock}
  {m : Machine}

/-- A step in the check that leaves the target alone. -/
theorem PassState.Passed.step (passed : state.Passed moduleID effect entry branch regs s)
    (runs : state.Runs effect s t) (before : s.InCheck branch) (after : t.InCheck branch)
    (same : t.m.regs regs.target = s.m.regs regs.target) :
    state.Passed moduleID effect entry branch regs t := by
  obtain ⟨barySlot, m, listed, reached, inside, below, kept⟩ := passed
  exact ⟨barySlot, m, listed, reached, inside.tail ⟨runs, before, after⟩, below,
    same.trans kept⟩

/-- The start of a part of the function. -/
theorem Situation.enter_part {start : Place}
    (placed : PlacedBlock f moduleID state.loads32 mbb) (isPart : mbb.label = .part start)
    (held : f.NarrowHeld state.loads32 start m) :
    Situation f moduleID state effect entry ⟨mbb, 0, m⟩ := by
  obtain ⟨block, length, prepare, found, inside, part⟩ := placed.part isPart
  have atStart : f.NarrowHeld state.loads32 (start.advance (min 0 length)) m := by
    rw [Nat.zero_min]
    exact held
  refine .part found inside isPart part atStart ?_
  rw [Nat.zero_sub, List.take_zero]
  rfl

/-- The start of a block of a check. -/
theorem Situation.enter_check {kind : CheckBlock} (isCheck : mbb.label = .check branch kind)
    (check : f.CheckAt branch regs) (checking : f.Checking state.loads32 branch regs m)
    (passed : kind = .icj ∨ kind = .interopCheck →
      state.Passed moduleID effect entry branch regs ⟨mbb, 0, m⟩) :
    Situation f moduleID state effect entry ⟨mbb, 0, m⟩ := by
  by_cases notBranch : kind = .icj
  · subst notBranch
    exact .icj isCheck check checking (Nat.zero_le _) rfl (passed (.inl rfl))
  by_cases notReport : kind = .report
  · subst notReport
    exact .report isCheck
  refine .check isCheck notBranch notReport check checking fun inCheck => ?_
  rcases inCheck with ⟨-, never⟩ | isInterop | isBranch
  · exact nomatch never
  · exact passed (.inr (Label.check.inj (isCheck.symm.trans isInterop)).2)
  · exact absurd (Label.check.inj (isCheck.symm.trans isBranch)).2 notBranch

end Situations

section Steps

variable {f : MachineFunction} {moduleID : BitVec 64} {state : PassState} {effect : Effect}
  {entry s t : RunState} {branch : Place} {regs : CheckRegs}

/-- The registers of a check do no harm to the stack pointer. -/
theorem MachineFunction.Checkable.apart (checkable : f.Checkable)
    (check : f.CheckAt branch regs) : regs.Apart [.rsp] := by
  rcases check.found with ⟨-, -, -, -, -, -, rfl⟩ | ⟨target, uses, isBranch, rfl⟩
  · exact ⟨by decide, by decide, by decide, by decide, by decide, by decide, by decide,
      by decide, by decide⟩
  · have stack := (siteOf target uses).rsp_not_mem_scratchRegs
    have nodup := (siteOf target uses).scratchRegs_nodup
    have others {left : List Reg} (stack : .rsp ∉ left) :
        ∀ reg ∈ left.take 2, reg ∉ [Reg.rsp] := by
      intro reg first isStack
      obtain rfl := List.mem_singleton.mp isStack
      exact stack (List.mem_of_mem_take first)
    rcases (siteOf target uses).checkRegs_cases with ⟨reg, isTarget, chosen⟩ |
      ⟨operand, reg, left, isTarget, shape, chosen⟩
    · obtain rfl : target = .reg reg := isTarget
      obtain ⟨free, notStack⟩ := checkable.target _ _ _ isBranch
      rw [chosen]
      exact chooseIDRegs_apart nodup stack free (fun same => notStack (List.mem_singleton.mp same))
        (others stack)
    · rw [shape] at stack nodup
      have stackLeft : .rsp ∉ left := fun listed => stack (List.mem_cons_of_mem _ listed)
      rw [chosen]
      refine chooseIDRegs_apart (List.nodup_cons.mp nodup).2 stackLeft
        (fun listed => (List.nodup_cons.mp nodup).1 (List.mem_of_mem_take listed))
        (fun same => stack ?_) (others stackLeft)
      exact List.mem_singleton.mp same ▸ List.mem_cons_self

/-- What the check takes without a spill is among the first registers that are left. -/
theorem BranchSite.checkRegs_unspilled (site : BranchSite) :
    (site.checkRegs.bidSpill = false →
        site.checkRegs.bid ∈ site.scratchRegs.take site.needed) ∧
      (site.checkRegs.tidSpill = false →
        site.checkRegs.tid ∈ site.scratchRegs.take site.needed) := by
  rcases site.checkRegs_cases with ⟨reg, isTarget, chosen⟩ |
    ⟨operand, reg, left, isTarget, shape, chosen⟩
  · rw [chosen, needed, isTarget]
    exact chooseIDRegs_unspilled _ _
  · rw [chosen, needed, isTarget, shape]
    obtain ⟨bid, tid⟩ := chooseIDRegs_unspilled reg left
    exact ⟨fun unspilled => List.mem_cons_of_mem _ (bid unspilled),
      fun unspilled => List.mem_cons_of_mem _ (tid unspilled)⟩

/-- Behind a call, what was narrow in front of its check and is not the callee's is narrow. -/
theorem MachineFunction.Checking.called {instr : CallInstr} {target : BranchTarget}
    {checked : Machine} (interprets : Interprets effect)
    (isCall : f.inst? branch = some (.call instr)) (attached : instr.irInst.isSome = true)
    (isTarget : instr.opcode.branchTarget = some target)
    (isRegs : regs = (siteOf target instr.uses).checkRegs) (apart : regs.Apart [.rsp])
    (checking : f.Checking state.loads32 branch regs checked) :
    f.NarrowHeld state.loads32 (branch.advance 1)
      (instr.named.exec effect (run regs.pops checked)) := by
  intro reg notStack narrow
  rcases narrow with ⟨-, src, isLoad⟩ | ⟨⟨undefined, kept⟩, earlier⟩
  · exact nomatch isCall.symm.trans isLoad
  have notDefined : reg ∉ instr.defs := fun defined => undefined ⟨_, isCall, defined⟩
  have notClobbered : reg ∉ instr.clobbers := fun clobbered =>
    kept (.inl ⟨_, isCall, clobbered⟩)
  have spared : reg ∉ (siteOf target instr.uses).scratchRegs.take
      (siteOf target instr.uses).needed := fun taken =>
    kept (.inr ⟨instr, target, isCall, attached, isTarget, taken⟩)
  obtain ⟨before, prepared, only⟩ := checking
  have below := prepared reg notStack (.inr earlier)
  obtain ⟨others, bid, tid⟩ := only.pops_restore apart
  obtain ⟨bidTaken, tidTaken⟩ := (siteOf target instr.uses).checkRegs_unspilled
  rw [← isRegs] at bidTaken tidTaken
  have unchanged : (instr.named.exec effect (run regs.pops checked)).regs reg =
      (run regs.pops checked).regs reg :=
    interprets.frame _ _ reg notDefined notClobbered
  rw [unchanged]
  by_cases isBid : reg = regs.bid
  · subst isBid
    cases spilled : regs.bidSpill with
    | false => exact absurd (bidTaken spilled) spared
    | true =>
        rw [bid, if_pos spilled]
        exact below
  by_cases isTid : reg = regs.tid
  · subst isTid
    cases spilled : regs.tidSpill with
    | false => exact absurd (tidTaken spilled) spared
    | true =>
        rw [tid, if_pos spilled]
        exact below
  · rw [others reg isBid isTid]
    exact below

/-- What comes in front of a check reads no ID. -/
theorem PartOf.prepare_exec {start : Place} {block : FunctionBlock} {mbb : MachineBasicBlock}
    {length : Nat} {prepare : List Instr} {loads32 : List Place}
    (part : PartOf f loads32 start block mbb length prepare) {instr : Instr}
    (listed : instr ∈ prepare) (read : BitVec 64) (m : Machine) :
    execReading read instr m = instr.exec m := by
  cases part with
  | rest => exact nomatch listed
  | handler =>
      obtain rfl := List.mem_singleton.mp listed
      rfl
  | @front branch regs truncation home behind inside check truncates =>
      rcases List.mem_append.mp listed with inTruncation | spill
      · cases truncates with
        | narrowed => exact nomatch inTruncation
        | moved =>
            obtain rfl := List.mem_singleton.mp inTruncation
            rfl
        | loaded =>
            obtain rfl := List.mem_singleton.mp inTruncation
            rfl
        | returned =>
            rcases List.mem_cons.mp inTruncation with rfl | second
            · rfl
            · obtain rfl := List.mem_singleton.mp second
              rfl
      · rcases List.mem_append.mp spill with first | second
        · split at first
          · obtain rfl := List.mem_singleton.mp first
            rfl
          · exact nomatch first
        · split at second
          · obtain rfl := List.mem_singleton.mp second
            rfl
          · exact nomatch second

end Steps

section Runs

variable {f : MachineFunction} {moduleID : BitVec 64} {state : PassState} {effect : Effect}
  {entry s t : RunState} {branch : Place} {regs : CheckRegs}

/-- The block that a step leads to is one of the blocks behind the pass. -/
theorem PassState.Runs.listed (runs : state.Runs effect s t) (listed : s.mbb ∈ state.visited) :
    t.mbb ∈ state.visited := by
  cases runs with
  | instr => exact listed
  | jump _ _ isTarget => exact isTarget
  | tableJump _ _ isTarget => exact isTarget
  | falls _ _ follows => exact follows.subset (List.mem_cons_of_mem _ List.mem_cons_self)

/-- A successor is entered at the end of a block of the function. -/
theorem Situation.enter_succ {place : Place} {block : FunctionBlock}
    {mbb : MachineBasicBlock} {m : Machine} {index : Nat}
    (placed : PlacedBlock f moduleID state.loads32 mbb)
    (isPart : mbb.label = .part ⟨index, 0⟩) (held : f.NarrowHeld state.loads32 place m)
    (found : f.blocks[place.block]? = some block) (atEnd : place.index = block.insts.length)
    (isSucc : .part ⟨index, 0⟩ ∈ block.labels) :
    Situation f moduleID state effect entry ⟨mbb, 0, m⟩ := by
  refine .enter_part placed isPart ?_
  refine held.enter found (Nat.le_of_eq atEnd) (mem_labels isSucc).2 fun later behind inside => ?_
  omega

/-- A step inside a part of the function, or in front of a check. -/
theorem Situation.part_instr {start : Place} {block : FunctionBlock} {length : Nat}
    {prepare : List Instr} {before after : Machine} {inst : PassInst}
    (interprets : Interprets effect) (found : f.blocks[start.block]? = some block)
    (inside : start.index ≤ block.insts.length) (label : s.mbb.label = .part start)
    (part : PartOf f state.loads32 start block s.mbb length prepare)
    (held : f.NarrowHeld state.loads32 (start.advance (min s.index length)) before)
    (isM : s.m = run (prepare.take (s.index - length)) before)
    (isInst : s.mbb.code[s.index]? = some inst)
    (executes : inst.Executes effect state.loads32 (s.mbb.place s.index) s.m after) :
    Situation f moduleID state effect entry ⟨s.mbb, s.index + 1, after⟩ := by
  rcases part.inst_cases found isInst with ⟨early, isFunction⟩ |
    ⟨behind, rfl | ⟨instr, rfl, isPrepare⟩⟩
  · have place : s.mbb.place s.index = start.advance s.index := by
      rw [MachineBasicBlock.place, label]
    rw [Nat.sub_eq_zero_of_le (Nat.le_of_lt early), List.take_zero] at isM
    obtain rfl : s.m = before := isM
    rw [Nat.min_eq_left (Nat.le_of_lt early)] at held
    rw [place] at executes
    have next := held.step interprets isFunction executes
    refine .part found inside label part (?_ : f.NarrowHeld _ _ after) ?_
    · rw [Nat.min_eq_left early]
      exact next
    · rw [Nat.sub_eq_zero_of_le early, List.take_zero]
      rfl
  · cases executes
  · obtain ⟨⟩ := executes
    refine .part found inside label part (?_ : f.NarrowHeld _ _ before) ?_
    · rw [Nat.min_eq_right behind] at held
      rw [Nat.min_eq_right (Nat.le_succ_of_le behind)]
      exact held
    · rw [Nat.succ_sub behind, run_take_succ isPrepare, ← isM]
      exact part.prepare_exec (List.mem_of_getElem? isPrepare) _ _

/-- A direct jump out of a part of the function. -/
theorem Situation.part_jump {start : Place} {block : FunctionBlock} {length : Nat}
    {prepare : List Instr} {before : Machine} {inst : PassInst} {target : MachineBasicBlock}
    (found : f.blocks[start.block]? = some block)
    (part : PartOf f state.loads32 start block s.mbb length prepare)
    (held : f.NarrowHeld state.loads32 (start.advance (min s.index length)) before)
    (isM : s.m = run (prepare.take (s.index - length)) before)
    (isInst : s.mbb.code[s.index]? = some inst) (jumps : inst.JumpsTo s.m target.label)
    (placed : PlacedBlock f moduleID state.loads32 target) :
    Situation f moduleID state effect entry ⟨target, 0, s.m⟩ := by
  rcases part.inst_cases found isInst with ⟨early, isFunction⟩ |
    ⟨behind, rfl | ⟨instr, rfl, isPrepare⟩⟩
  · rw [Nat.sub_eq_zero_of_le (Nat.le_of_lt early), List.take_zero] at isM
    obtain rfl : s.m = before := isM
    rw [Nat.min_eq_left (Nat.le_of_lt early)] at held
    have isListed := isFunction
    rw [f.inst?_eq (start.advance s.index) found] at isListed
    rcases FunctionBlock.inst_cases (List.mem_of_getElem? isListed) with ⟨instr, rfl⟩ |
      ⟨instr, rfl⟩ | ⟨next, isJump, rfl⟩
    · exact nomatch jumps
    · exact nomatch jumps
    · have isPart : target.label = .part ⟨next, 0⟩ := by
        generalize target.label = label at jumps
        cases jumps
        rfl
      refine .enter_part placed isPart ?_
      refine held.enter found (Nat.le_of_lt (List.getElem?_eq_some_iff.mp isListed).1)
        (f.jumps block (List.mem_of_getElem? found) next isJump) ?_
      rintro later behind - reg ⟨-, src, isLoad⟩
      have isLoad := (f.inst?_eq ⟨start.block, later⟩ found).symm.trans isLoad
      obtain ⟨target, never⟩ := FunctionBlock.jump_behind isListed behind isLoad
      exact nomatch never
  · exact nomatch jumps
  · exact nomatch jumps

/-- Over the end of a part of the function, or through a jump table. -/
theorem Situation.part_end {start : Place} {block : FunctionBlock} {length : Nat}
    {prepare : List Instr} {before : Machine} {next : MachineBasicBlock}
    (found : f.blocks[start.block]? = some block)
    (inside : start.index ≤ block.insts.length)
    (part : PartOf f state.loads32 start block s.mbb length prepare)
    (held : f.NarrowHeld state.loads32 (start.advance (min s.index length)) before)
    (isM : s.m = run (prepare.take (s.index - length)) before)
    (atEnd : s.index = s.mbb.code.length)
    (placed : PlacedBlock f moduleID state.loads32 next)
    (leaves : (∃ exit, s.mbb.exit = some exit ∧ next.label ∈ s.mbb.succs) ∨
      s.mbb.falls = true ∧ Adjacent s.mbb next) :
    Situation f moduleID state effect entry ⟨next, 0, s.m⟩ := by
  obtain ⟨mbb, index, m⟩ := s
  dsimp only at *
  subst atEnd
  cases part with
  | rest =>
      have length : (block.rest start).code.length = block.insts.length - start.index :=
        List.length_drop
      rw [length, Nat.min_self] at held
      rw [length, Nat.sub_self, List.take_zero] at isM
      obtain rfl : m = before := isM
      have atEnd : (start.advance (block.insts.length - start.index)).index =
          block.insts.length := Nat.add_sub_cancel' inside
      have isSucc : ∃ index, next.label = .part ⟨index, 0⟩ ∧
          .part ⟨index, 0⟩ ∈ block.labels := by
        rcases leaves with ⟨exit, -, isSucc⟩ | ⟨falls, adjacent⟩
        · obtain ⟨index, listed, isLabel⟩ := List.mem_map.mp isSucc
          exact ⟨index, isLabel.symm, isLabel ▸ isSucc⟩
        · rcases @Adjacent.of_function _ _ start adjacent falls (.inl ⟨start, rfl⟩)
            FunctionBlock.labels_part with ⟨never, -⟩ | isSucc
          · cases never
          · exact isSucc
      obtain ⟨index, isPart, isSucc⟩ := isSucc
      exact .enter_succ placed isPart held found atEnd isSucc
  | handler =>
      rcases leaves with ⟨exit, never, -⟩ | ⟨never, -⟩
      · cases never
      · cases never
  | @front branch regs truncation home behind inside' check truncates =>
      rcases leaves with ⟨exit, never, -⟩ | ⟨-, adjacent⟩
      · cases never
      have isCheck := adjacent.of_front
      have length : (block.front start branch (truncation ++ regs.pushes)).code.length =
          branch.index - start.index + (truncation ++ regs.pushes).length := by
        rw [FunctionBlock.front, List.length_append, List.length_map, List.length_take,
          List.length_drop, Nat.min_eq_left (Nat.sub_le_sub_right inside' _)]
      have place : start.advance (branch.index - start.index) = branch := by
        obtain ⟨home', index⟩ := branch
        obtain rfl : home' = start.block := home
        rw [Place.advance, Nat.add_sub_cancel' behind]
      rw [length, Nat.min_eq_right (Nat.le_add_right _ _), place] at held
      rw [length, Nat.add_sub_cancel_left, List.take_length, run_append] at isM
      refine .enter_check isCheck check ⟨_, truncates.prepared held, ?_⟩ ?_
      · rw [isM]
        exact ⟨rfl, fun _ _ _ => rfl⟩
      · rintro (never | never) <;> cases never

end Runs

section Checks

variable {f : MachineFunction} {moduleID : BitVec 64} {state : PassState} {effect : Effect}
  {entry s t : RunState} {branch : Place} {regs : CheckRegs} {kind : CheckBlock}
  {mbb : MachineBasicBlock}

/-- A block of a check ends in no branch of the function. -/
theorem BlockOf.plain_end (isBlock : BlockOf f moduleID branch regs mbb kind)
    (notBranch : kind ≠ .icj) :
    mbb.exit = none ∧ ∀ start, .part start ∉ mbb.succs := by
  cases kind with
  | icj => exact absurd rfl notBranch
  | idCmp =>
      obtain ⟨barySlot, rfl⟩ := isBlock
      exact ⟨rfl, fun start listed => by simp [mcfiX64IDCmp] at listed⟩
  | interopCheck =>
      obtain rfl := isBlock
      exact ⟨rfl, fun start listed => by simp [mcfiX64InteropCheck] at listed⟩
  | idValidityCheck =>
      obtain rfl := isBlock
      exact ⟨rfl, fun start listed => by simp [mcfiX64IDValidityCheck] at listed⟩
  | verCheck =>
      obtain rfl := isBlock
      exact ⟨rfl, fun start listed => by simp [mcfiX64IDVersionCheck] at listed⟩
  | report =>
      obtain ⟨isReturn, rfl⟩ := isBlock
      exact ⟨rfl, by rintro start ⟨⟩⟩

/-- The jumps of a check are to its blocks. -/
theorem BlockOf.jumps {index : Nat} {inst : PassInst} {m : Machine} {label : Label}
    (isBlock : BlockOf f moduleID branch regs mbb kind) (notBranch : kind ≠ .icj)
    (notReport : kind ≠ .report) (isInst : mbb.code[index]? = some inst)
    (jumps : inst.JumpsTo m label) :
    ∃ after, label = .check branch after ∧ (after = .icj → kind = .interopCheck) ∧
      (after = .interopCheck → kind = .idCmp ∧ 1 ≤ index) := by
  cases kind with
  | icj => exact absurd rfl notBranch
  | report => exact absurd rfl notReport
  | idCmp =>
      obtain ⟨barySlot, rfl⟩ := isBlock
      match index, isInst with
      | 0, isInst => obtain rfl := Option.some.inj isInst; exact nomatch jumps
      | 1, isInst => obtain rfl := Option.some.inj isInst; exact nomatch jumps
      | 2, isInst => obtain rfl := Option.some.inj isInst; exact nomatch jumps
      | 3, isInst =>
          obtain rfl := Option.some.inj isInst
          cases jumps
          exact ⟨.interopCheck, rfl, nofun, fun _ => ⟨rfl, by decide⟩⟩
  | interopCheck =>
      obtain rfl := isBlock
      match index, isInst with
      | 0, isInst => obtain rfl := Option.some.inj isInst; exact nomatch jumps
      | 1, isInst =>
          obtain rfl := Option.some.inj isInst
          cases jumps
          exact ⟨.icj, rfl, fun _ => rfl, nofun⟩
  | idValidityCheck =>
      obtain rfl := isBlock
      match index, isInst with
      | 0, isInst => obtain rfl := Option.some.inj isInst; exact nomatch jumps
      | 1, isInst =>
          obtain rfl := Option.some.inj isInst
          cases jumps
          exact ⟨.report, rfl, nofun, nofun⟩
  | verCheck =>
      obtain rfl := isBlock
      match index, isInst with
      | 0, isInst => obtain rfl := Option.some.inj isInst; exact nomatch jumps
      | 1, isInst =>
          obtain rfl := Option.some.inj isInst
          cases jumps
          exact ⟨.idCmp, rfl, nofun, nofun⟩

/-- A step from a block of a check. -/
theorem Situation.check_step (laid : Laid f moduleID state) (done : state.pending = [])
    (checkable : f.Checkable) (listed : s.mbb ∈ state.visited)
    (reached : ReflTransGen (state.Runs effect) entry s) (runs : state.Runs effect s t)
    (isCheck : s.mbb.label = .check branch kind) (notBranch : kind ≠ .icj)
    (notReport : kind ≠ .report) (check : f.CheckAt branch regs)
    (checking : f.Checking state.loads32 branch regs s.m)
    (passed : s.InCheck branch → state.Passed moduleID effect entry branch regs s) :
    Situation f moduleID state effect entry t := by
  have apart := checkable.apart check
  have notStack : regs.target ≠ .rsp := fun same =>
    apart.target (List.mem_singleton.mpr same)
  have placed := laid.placed s.mbb (List.mem_append_left _ listed)
  have isBlock := placed.check isCheck check notReport
  obtain ⟨noExit, noPart⟩ := isBlock.plain_end notBranch
  cases runs with
  | @instr mbb index m after inst isInst executes =>
      obtain ⟨later, others⟩ := checking.instr isBlock notBranch notReport
        (List.mem_of_getElem? isInst) executes
      have target := others _ apart.bidTarget.symm apart.tidTarget.symm
      have runs : state.Runs effect ⟨mbb, index, m⟩ ⟨mbb, index + 1, after⟩ :=
        .instr isInst executes
      refine .check isCheck notBranch notReport check later fun inCheck => ?_
      by_cases started : RunState.InCheck branch ⟨mbb, index, m⟩
      · exact (passed started).step runs started inCheck target
      · -- the target's ID has just been read
        rcases inCheck with ⟨isIdCmp, -⟩ | isInterop | isBranch
        · obtain ⟨-, rfl⟩ := Label.check.inj (isCheck.symm.trans isIdCmp)
          obtain ⟨barySlot, rfl⟩ := isBlock
          have first : index = 0 := by
            by_contra later
            exact started (.inl ⟨isIdCmp, Nat.one_le_iff_ne_zero.mpr later⟩)
          subst first
          exact ⟨barySlot, after, listed, reached.tail runs, .refl,
            later.target_lt apart notStack, rfl⟩
        · exact absurd (.inr (.inl isInterop)) started
        · exact absurd (.inr (.inr isBranch)) started
  | @jump mbb target index m inst isInst jumps isTarget =>
      obtain ⟨after, isAfter, branches, interop⟩ :=
        isBlock.jumps notBranch notReport isInst jumps
      have runs : state.Runs effect ⟨mbb, index, m⟩ ⟨target, 0, m⟩ :=
        .jump isInst jumps isTarget
      refine .enter_check isAfter check checking ?_
      rintro (rfl | rfl)
      · have started : RunState.InCheck branch ⟨mbb, index, m⟩ :=
          .inr (.inl (branches rfl ▸ isCheck))
        exact (passed started).step runs started (.inr (.inr isAfter)) rfl
      · obtain ⟨isIdCmp, late⟩ := interop rfl
        have started : RunState.InCheck branch ⟨mbb, index, m⟩ :=
          .inl ⟨isIdCmp ▸ isCheck, late⟩
        exact (passed started).step runs started (.inr (.inl isAfter)) rfl
  | tableJump isExit => exact nomatch noExit.symm.trans isExit
  | @falls mbb next m noExit falls follows =>
      obtain ⟨after, isAfter, branches, notInterop⟩ :=
        (laid.follows done follows).of_check isCheck notBranch falls noPart
      have runs : state.Runs effect ⟨mbb, mbb.code.length, m⟩ ⟨next, 0, m⟩ :=
        .falls noExit falls follows
      refine .enter_check isAfter check checking ?_
      rintro (rfl | rfl)
      · obtain rfl := branches rfl
        obtain ⟨barySlot, rfl⟩ := isBlock
        have started : RunState.InCheck branch
            ⟨mcfiX64IDCmp branch regs moduleID barySlot, _, m⟩ :=
              .inl ⟨isCheck, Nat.succ_le_succ (Nat.zero_le 3)⟩
        exact (passed started).step runs started (.inr (.inr isAfter)) rfl
      · exact absurd rfl notInterop

theorem BranchBlock.shape (isBlock : BranchBlock f branch regs mbb) :
    ∃ cj falls succs, mbb = mcfiX64ICJ branch regs cj falls succs := by
  cases isBlock with
  | call => exact ⟨_, _, _, rfl⟩
  | exit => exact ⟨_, _, _, rfl⟩

/-- A step in front of the branch behind a check, or over it. -/
theorem Situation.icj_step {checked : Machine} (laid : Laid f moduleID state)
    (checkable : f.Checkable) (interprets : Interprets effect)
    (listed : s.mbb ∈ state.visited) (runs : state.Runs effect s t)
    (isBranch : s.mbb.label = .check branch .icj) (check : f.CheckAt branch regs)
    (checking : f.Checking state.loads32 branch regs checked)
    (reloads : s.index ≤ regs.pops.length)
    (isM : s.m = run (regs.pops.take s.index) checked)
    (passed : state.Passed moduleID effect entry branch regs s) :
    Situation f moduleID state effect entry t := by
  have apart := checkable.apart check
  have notStack : regs.target ≠ .rsp := fun same =>
    apart.target (List.mem_singleton.mpr same)
  have placed := laid.placed s.mbb (List.mem_append_left _ listed)
  have isBlock : BranchBlock f branch regs s.mbb := placed.check isBranch check (by rintro ⟨⟩)
  have shape := isBlock.shape
  have atIndex {inst : PassInst} (isInst : s.mbb.code[s.index]? = some inst) :
      (∃ instr, inst = .check instr ∧ regs.pops[s.index]? = some instr) ∨
        s.index = regs.pops.length ∧ s.mbb.code.getLast? = some inst := by
    obtain ⟨cj, falls, succs, isMbb⟩ := shape
    rw [isMbb, mcfiX64ICJ] at isInst ⊢
    rcases Nat.lt_or_eq_of_le reloads with early | atEnd
    · rw [List.getElem?_append_left (by simpa using early), List.getElem?_map] at isInst
      obtain ⟨instr, isInstr, rfl⟩ := Option.map_eq_some_iff.mp isInst
      exact .inl ⟨instr, rfl, isInstr⟩
    · rw [List.getElem?_append_right (by simp [atEnd]), List.length_map, atEnd,
        Nat.sub_self] at isInst
      refine .inr ⟨atEnd, ?_⟩
      rw [List.getLast?_append_of_ne_nil _ (List.cons_ne_nil _ _)]
      exact isInst
  obtain ⟨mbb, index, m⟩ := s
  dsimp only at *
  subst isM
  cases runs with
  | @instr _ _ _ after inst isInst executes =>
      rcases atIndex isInst with ⟨instr, rfl, isPop⟩ | ⟨rfl, isLast⟩
      · have inPops := List.mem_of_getElem? isPop
        have runs : state.Runs effect ⟨mbb, index, run (regs.pops.take index) checked⟩
          ⟨mbb, index + 1, after⟩ := .instr isInst executes
        obtain ⟨⟩ := executes
        rename_i read
        have isPopped : execReading read instr (run (regs.pops.take index) checked) =
            instr.exec (run (regs.pops.take index) checked) := by
          rcases regs.mem_pops inPops with rfl | rfl <;> rfl
        rw [isPopped] at runs ⊢
        have target := @CheckRegs.pop_other regs (run (regs.pops.take index) checked) instr
          regs.target inPops notStack apart.bidTarget.symm apart.tidTarget.symm
        refine .icj isBranch check checking (List.getElem?_eq_some_iff.mp isPop).1 ?_
          (passed.step runs (.inr (.inr isBranch)) (.inr (.inr isBranch)) target)
        exact (run_take_succ isPop checked).symm
      · have behind : regs.pops.length < regs.pops.length + 1 := Nat.lt_succ_self _
        rw [List.take_length] at executes
        cases isBlock with
        | @call instr target block falls succs barySlot found isCall attached isTarget isRegs
            resumes =>
            rw [mcfiX64ICJ, List.getLast?_append_of_ne_nil _ (List.cons_ne_nil _ _)] at isLast
            obtain rfl := Option.some.inj isLast
            obtain ⟨⟩ := executes
            exact .called isBranch check behind
              (checking.called interprets isCall attached isTarget isRegs apart)
        | exit barySlot through =>
            rw [mcfiX64ICJ, List.getLast?_append_of_ne_nil _ (List.cons_ne_nil _ _)] at isLast
            obtain rfl := Option.some.inj isLast
            cases executes
  | jump isInst jumps isTarget =>
      rcases atIndex isInst with ⟨instr, rfl, -⟩ | ⟨-, isLast⟩
      · cases jumps
      · cases isBlock with
        | call =>
            rw [mcfiX64ICJ, List.getLast?_append_of_ne_nil _ (List.cons_ne_nil _ _)] at isLast
            obtain rfl := Option.some.inj isLast
            cases jumps
        | exit =>
            rw [mcfiX64ICJ, List.getLast?_append_of_ne_nil _ (List.cons_ne_nil _ _)] at isLast
            obtain rfl := Option.some.inj isLast
            cases jumps
  | tableJump isExit =>
      obtain ⟨cj, falls, succs, rfl⟩ := shape
      cases isExit
  | falls =>
      obtain ⟨cj, falls, succs, rfl⟩ := shape
      simp only [mcfiX64ICJ, List.length_append, List.length_map, List.length_singleton]
        at reloads
      omega

/-- A step behind a call. -/
theorem Situation.called_step (laid : Laid f moduleID state) (done : state.pending = [])
    (listed : s.mbb ∈ state.visited) (runs : state.Runs effect s t)
    (isBranch : s.mbb.label = .check branch .icj) (check : f.CheckAt branch regs)
    (behind : regs.pops.length < s.index)
    (held : f.NarrowHeld state.loads32 (branch.advance 1) s.m) :
    Situation f moduleID state effect entry t := by
  have listedAfter := runs.listed listed
  have placed := laid.placed s.mbb (List.mem_append_left _ listed)
  have isBlock : BranchBlock f branch regs s.mbb := placed.check isBranch check (by rintro ⟨⟩)
  have shape := isBlock.shape
  have noInst : s.mbb.code[s.index]? = none := by
    obtain ⟨cj, falls, succs, isMbb⟩ := shape
    rw [isMbb, mcfiX64ICJ, List.getElem?_eq_none_iff, List.length_append, List.length_map]
    exact behind
  cases runs with
  | instr isInst => cases noInst.symm.trans isInst
  | jump isInst => cases noInst.symm.trans isInst
  | tableJump isExit =>
      obtain ⟨cj, falls, succs, rfl⟩ := shape
      cases isExit
  | falls noExit falls follows =>
      have placedNext := laid.placed _ (List.mem_append_left _ listedAfter)
      have adjacent := laid.follows done follows
      cases isBlock with
      | exit => cases falls
      | @call instr target block falls' succs barySlot found isCall attached isTarget isRegs
            resumes =>
          have noCheck : ∀ place kind, .check place kind ∉ succs := by
            intro place kind
            rcases resumes with ⟨-, rfl⟩ | ⟨-, -, rfl⟩
            · intro never
              cases List.mem_singleton.mp never
            · exact FunctionBlock.labels_part place kind
          rcases adjacent.of_function falls (.inr isBranch) noCheck with ⟨-, isNext⟩ |
            ⟨index, isNext, isSucc⟩
          · exact .enter_part placedNext isNext held
          · rcases resumes with ⟨-, rfl⟩ | ⟨atEnd, -, rfl⟩
            · exact .enter_part placedNext (isNext.trans (List.mem_singleton.mp isSucc)) held
            · exact .enter_succ placedNext isNext held found atEnd isSucc

end Checks

section Invariant

variable {f : MachineFunction} {moduleID : BitVec 64} {state : PassState} {effect : Effect}
  {entry s t : RunState}

/-- A step leads from one situation to another. -/
theorem Situation.step (laid : Laid f moduleID state) (done : state.pending = [])
    (checkable : f.Checkable) (interprets : Interprets effect)
    (listed : s.mbb ∈ state.visited) (reached : ReflTransGen (state.Runs effect) entry s)
    (situation : Situation f moduleID state effect entry s) (runs : state.Runs effect s t) :
    Situation f moduleID state effect entry t := by
  have placed := laid.placed t.mbb (List.mem_append_left _ (runs.listed listed))
  cases situation with
  | part found inside label part held isM =>
      cases runs with
      | instr isInst executes =>
          exact part_instr interprets found inside label part held isM isInst executes
      | jump isInst jumps isTarget =>
          exact part_jump found part held isM isInst jumps placed
      | tableJump isExit isSucc isTarget =>
          exact part_end found inside part held isM rfl placed (.inl ⟨_, isExit, isSucc⟩)
      | falls noExit falls follows =>
          exact part_end found inside part held isM rfl placed
            (.inr ⟨falls, laid.follows done follows⟩)
  | check isCheck notBranch notReport check checking passed =>
      exact check_step laid done checkable listed reached runs isCheck notBranch notReport
        check checking passed
  | icj isBranch check checking reloads isM passed =>
      exact icj_step laid checkable interprets listed runs isBranch check checking reloads isM
        passed
  | called isBranch check behind held =>
      exact called_step laid done listed runs isBranch check behind held
  | report isReport =>
      have isBlock : ∃ branch regs isReturn, s.mbb = mcfiX64Report branch regs isReturn := by
        generalize s.mbb = mbb at isReport listed
        cases laid.placed mbb (List.mem_append_left _ listed) with
        | report isReturn => exact ⟨_, _, isReturn, rfl⟩
        | _ => exact nomatch isReport
      obtain ⟨branch, regs, isReturn, isMbb⟩ := isBlock
      have noJump : ∀ inst ∈ s.mbb.code, ∀ m label, ¬ inst.JumpsTo m label := by
        intro inst isInst m label jumps
        rw [isMbb] at isInst
        rcases List.mem_append.mp isInst with moved | last
        · split at moved
          · obtain rfl := List.mem_singleton.mp moved
            exact nomatch jumps
          · exact nomatch moved
        · obtain rfl := List.mem_singleton.mp last
          exact nomatch jumps
      cases runs with
      | instr => exact .report isReport
      | jump isInst jumps =>
          exact absurd jumps (noJump _ (List.mem_of_getElem? isInst) _ _)
      | tableJump isExit =>
          obtain rfl := isMbb
          exact nomatch isExit
      | falls noExit falls =>
          obtain rfl := isMbb
          exact nomatch falls

/-- Every run from the entry of the function stays in these situations. -/
theorem Situation.run (laid : Laid f moduleID state) (done : state.pending = [])
    (checkable : f.Checkable) (interprets : Interprets effect) (enters : state.Enters entry)
    (reached : ReflTransGen (state.Runs effect) entry s) :
    s.mbb ∈ state.visited ∧ Situation f moduleID state effect entry s := by
  induction reached with
  | refl =>
      obtain ⟨listed, isEntry, atStart⟩ := enters
      refine ⟨listed, ?_⟩
      obtain ⟨mbb, index, m⟩ := entry
      obtain rfl : index = 0 := atStart
      exact enter_part (laid.placed mbb (List.mem_append_left _ listed)) isEntry
        (f.narrowHeld_entry _ _)
  | tail before runs inductionHypothesis =>
      obtain ⟨listed, situation⟩ := inductionHypothesis
      exact ⟨runs.listed listed,
        situation.step laid done checkable interprets listed before runs⟩

end Invariant

section Emitted

variable {f : MachineFunction} {moduleID : BitVec 64} {loads32 : List Place}
  {mbb : MachineBasicBlock} {pic : Bool}

/-- A call that is examined is emitted behind a check only. -/
theorem emitCall_examined {opcode : CallOpcode} (examined : opcode.examined = true)
    {emitted : List MCInst} (emits : emitCall opcode false = some emitted) : emitted = [] := by
  cases opcode with
  | patchpoint callTarget scratch =>
      rw [emitCall, if_pos (of_decide_eq_true examined)] at emits
      exact (Option.some.inj emits).symm
  | call64r => exact nomatch emits
  | call64m => exact nomatch emits
  | call32r => exact nomatch emits
  | call32m => exact nomatch emits
  | _ => exact nomatch examined

/-- A branch that is examined is emitted without a check for a jump table only. -/
theorem emitExit_examined {opcode : ExitOpcode} {tableJump : Bool}
    (examined : opcode.examined = true) {emitted : List MCInst}
    (emits : emitExit pic opcode false tableJump = some emitted) :
    ∀ inst ∈ emitted, inst.isIndirect = false := by
  cases opcode with
  | retq => exact nomatch emits
  | retl => exact nomatch emits
  | retw => exact nomatch emits
  | tailJmpM => exact nomatch emits
  | tailJmpM64 => exact nomatch emits
  | jmp64m target jti =>
      simp only [emitExit, Option.ite_none_right_eq_some, Option.some.injEq] at emits
      intro inst listed
      rw [← emits.2, List.mem_singleton] at listed
      exact listed ▸ rfl
  | jmp32m target jti =>
      simp only [emitExit, Option.ite_none_right_eq_some, Option.some.injEq] at emits
      intro inst listed
      rw [← emits.2, List.mem_singleton] at listed
      exact listed ▸ rfl
  | jmp64r target =>
      simp only [emitExit, Bool.false_or, Option.ite_none_right_eq_some, Option.some.injEq] at emits
      intro inst listed
      rw [← emits.2, List.mem_singleton] at listed
      rw [listed, emits.1, MCInst.isIndirect, Bool.not_true]
  | jmp32r target =>
      simp only [emitExit, Bool.false_or, Option.ite_none_right_eq_some, Option.some.injEq] at emits
      intro inst listed
      rw [← emits.2, List.mem_singleton] at listed
      rw [listed, emits.1, MCInst.isIndirect, Bool.not_true]
  | tailJmpR64 target =>
      simp only [emitExit, Bool.false_or, Option.ite_none_right_eq_some, Option.some.injEq] at emits
      intro inst listed
      rw [← emits.2, List.mem_singleton] at listed
      rw [listed, emits.1, MCInst.isIndirect, Bool.not_true]
  | tailJmpR target =>
      simp only [emitExit, Bool.false_or, Option.ite_none_right_eq_some, Option.some.injEq] at emits
      intro inst listed
      rw [← emits.2, List.mem_singleton] at listed
      rw [listed, emits.1, MCInst.isIndirect, Bool.not_true]
  | _ => exact nomatch examined

/-- An instruction that branches through no register and no memory. -/
theorem emitAt_plain {index : Nat} {emitted : List MCInst} (noExit : mbb.exit = none)
    (plain : ∀ inst ∈ mbb.code, inst.emit pic = some [.plain])
    (emits : mbb.emitAt pic index = some emitted) : ∀ inst ∈ emitted, inst.isIndirect = false := by
  rw [MachineBasicBlock.emitAt, noExit] at emits
  intro inst listed
  cases isInst : mbb.code[index]? with
  | none =>
      rw [isInst] at emits
      obtain rfl := Option.some.inj emits
      exact nomatch listed
  | some first =>
      rw [isInst] at emits
      have same := (plain first (List.mem_of_getElem? isInst)).symm.trans emits
      obtain rfl := Option.some.inj same
      rw [List.mem_singleton.mp listed]
      rfl

/-- The instructions of a part of the function branch through nothing. -/
theorem MachineFunction.Checkable.part_plain (checkable : f.Checkable) {start : Place}
    {block : FunctionBlock} {length index : Nat} {prepare : List Instr}
    {emitted : List MCInst} (found : f.blocks[start.block]? = some block)
    (part : PartOf f loads32 start block mbb length prepare)
    (emits : mbb.emitAt pic index = some emitted) :
    ∀ inst ∈ emitted, inst.isIndirect = false := by
  rw [MachineBasicBlock.emitAt] at emits
  intro inst listed
  cases isInst : mbb.code[index]? with
  | some first =>
      rw [isInst] at emits
      rcases part.inst_cases found isInst with ⟨-, isFunction⟩ | ⟨-, rfl | ⟨instr, rfl, -⟩⟩
      · obtain ⟨home, -, inHome⟩ := f.inst_listed isFunction
        rcases FunctionBlock.inst_cases inHome with ⟨instr, rfl⟩ | ⟨instr, rfl⟩ |
          ⟨target, -, rfl⟩
        · obtain rfl := Option.some.inj emits
          exact List.mem_singleton.mp listed ▸ rfl
        · have never := emitCall_examined (checkable.calls _ _ isFunction) emits
          rw [never] at listed
          exact nomatch listed
        · obtain rfl := Option.some.inj emits
          exact List.mem_singleton.mp listed ▸ rfl
      · obtain rfl := Option.some.inj emits
        exact List.mem_singleton.mp listed ▸ rfl
      · obtain rfl := Option.some.inj emits
        exact List.mem_singleton.mp listed ▸ rfl
  | none =>
      rw [isInst] at emits
      cases isExit : mbb.exit with
      | none =>
          rw [isExit] at emits
          obtain rfl := Option.some.inj emits
          exact nomatch listed
      | some exit =>
          rw [isExit] at emits
          cases part with
          | rest =>
              exact emitExit_examined
                (checkable.exits block (List.mem_of_getElem? found) exit isExit) emits inst
                listed
          | handler => exact nomatch isExit
          | front => exact nomatch isExit

/-- Behind a check, only the branch at the end of its block branches indirectly. -/
theorem mcfiX64ICJ_indirect {branch : Place} {regs : CheckRegs} {cj : PassInst} {falls : Bool}
    {succs : List Label} {index : Nat} {emitted : List MCInst} {inst : MCInst}
    (emits : (mcfiX64ICJ branch regs cj falls succs).emitAt pic index = some emitted)
    (listed : inst ∈ emitted) (indirect : inst.isIndirect = true) :
    index = regs.pops.length ∧ cj.emit pic = some emitted := by
  rw [MachineBasicBlock.emitAt, mcfiX64ICJ, List.getElem?_append, List.length_map] at emits
  split at emits
  · rename_i first isFirst
    split at isFirst
    · rw [List.getElem?_map] at isFirst
      obtain ⟨instr, -, rfl⟩ := Option.map_eq_some_iff.mp isFirst
      obtain rfl := Option.some.inj emits
      rw [List.mem_singleton.mp listed] at indirect
      cases indirect
    · rename_i behind
      obtain ⟨inRange, rfl⟩ := List.getElem?_eq_some_iff.mp isFirst
      have atEnd : index = regs.pops.length := by
        rw [List.length_singleton] at inRange
        omega
      subst atEnd
      simp only [Nat.sub_self, List.getElem_cons_zero] at emits
      exact ⟨rfl, emits⟩
  · rename_i noExit
    cases noExit
  · obtain rfl := Option.some.inj emits
    cases listed

/-- What is emitted as an indirect branch stands behind a check, through its target. -/
theorem PlacedBlock.indirect (placed : PlacedBlock f moduleID loads32 mbb)
    (checkable : f.Checkable) {index : Nat} {emitted : List MCInst} {inst : MCInst}
    (emits : mbb.emitAt pic index = some emitted) (listed : inst ∈ emitted)
    (indirect : inst.isIndirect = true) :
    ∃ branch regs, f.CheckAt branch regs ∧ mbb.label = .check branch .icj ∧
      index = regs.pops.length ∧ inst.through = some regs.target := by
  have notPart {start : Place} (isPart : mbb.label = .part start) : False := by
    obtain ⟨block, length, prepare, found, -, part⟩ := placed.part isPart
    have direct := checkable.part_plain found part emits inst listed
    cases direct.symm.trans indirect
  have notPlain (noExit : mbb.exit = none)
      (plain : ∀ inst ∈ mbb.code, inst.emit pic = some [.plain]) : False := by
    cases (emitAt_plain noExit plain emits inst listed).symm.trans indirect
  cases placed with
  | rest => exact (notPart rfl).elim
  | handler => exact (notPart rfl).elim
  | front => exact (notPart rfl).elim
  | icjCall barySlot found isCall attached isTarget resumes =>
      obtain ⟨atEnd, emits⟩ := mcfiX64ICJ_indirect emits listed indirect
      refine ⟨_, _, .branch (.call isCall attached isTarget), rfl, atEnd, ?_⟩
      simp only [PassInst.emit, emitCall, Option.ite_none_right_eq_some,
        Option.some.injEq] at emits
      rw [← emits.2, List.mem_singleton] at listed
      exact listed ▸ rfl
  | icjExit barySlot check through =>
      obtain ⟨atEnd, emits⟩ := mcfiX64ICJ_indirect emits listed indirect
      refine ⟨_, _, check, rfl, atEnd, ?_⟩
      rcases through with rfl | rfl
      · simp only [PassInst.emit, emitExit, Bool.or_false, Option.ite_none_right_eq_some,
          Option.some.injEq] at emits
        rw [← emits.2, List.mem_singleton] at listed
        exact listed ▸ rfl
      · simp only [PassInst.emit, emitExit, Bool.or_false, Option.ite_none_right_eq_some,
          Option.some.injEq] at emits
        rw [← emits.2, List.mem_singleton] at listed
        exact listed ▸ rfl
  | idCmp =>
      refine (notPlain rfl fun inst isInst => ?_).elim
      simp only [mcfiX64IDCmp, List.mem_cons, List.not_mem_nil, or_false] at isInst
      rcases isInst with rfl | rfl | rfl | rfl <;> rfl
  | interopCheck =>
      refine (notPlain rfl fun inst isInst => ?_).elim
      simp only [mcfiX64InteropCheck, List.mem_cons, List.not_mem_nil, or_false] at isInst
      rcases isInst with rfl | rfl <;> rfl
  | idValidityCheck =>
      refine (notPlain rfl fun inst isInst => ?_).elim
      simp only [mcfiX64IDValidityCheck, List.mem_cons, List.not_mem_nil, or_false] at isInst
      rcases isInst with rfl | rfl <;> rfl
  | verCheck =>
      refine (notPlain rfl fun inst isInst => ?_).elim
      simp only [mcfiX64IDVersionCheck, List.mem_cons, List.not_mem_nil, or_false] at isInst
      rcases isInst with rfl | rfl <;> rfl
  | report =>
      refine (notPlain rfl fun inst isInst => ?_).elim
      rcases List.mem_append.mp isInst with moved | last
      · split at moved
        · obtain rfl := List.mem_singleton.mp moved
          rfl
        · cases moved
      · obtain rfl := List.mem_singleton.mp last
        rfl

/-- An indirect branch that a run comes to is checked. -/
theorem Situation.checked {state : PassState} {effect : Effect} {entry s : RunState}
    (laid : Laid f moduleID state) (done : state.pending = []) (checkable : f.Checkable)
    (interprets : Interprets effect) (enters : state.Enters entry)
    (reached : ReflTransGen (state.Runs effect) entry s) {emitted : List MCInst}
    {inst : MCInst} (emits : s.mbb.emitAt pic s.index = some emitted)
    (listed : inst ∈ emitted) (indirect : inst.isIndirect = true) :
    ∃ target, inst.through = some target ∧ state.Checked moduleID effect entry s target := by
  obtain ⟨inVisited, situation⟩ := run laid done checkable interprets enters reached
  have placed := laid.placed s.mbb (List.mem_append_left _ inVisited)
  obtain ⟨branch, regs, check, isBranch, atEnd, through⟩ :=
    placed.indirect checkable emits listed indirect
  refine ⟨_, through, ?_⟩
  cases situation with
  | part _ _ label => exact nomatch label.symm.trans isBranch
  | check isCheck notBranch =>
      exact absurd (Label.check.inj (isCheck.symm.trans isBranch)).2 notBranch
  | report isReport => exact nomatch isReport.symm.trans isBranch
  | called isIcj same behind =>
      obtain ⟨rfl, -⟩ := Label.check.inj (isIcj.symm.trans isBranch)
      obtain rfl := same.unique check
      omega
  | icj isIcj same checking reloads isM passed =>
      obtain ⟨rfl, -⟩ := Label.check.inj (isIcj.symm.trans isBranch)
      obtain rfl := same.unique check
      have apart := checkable.apart check
      obtain ⟨barySlot, m, isCheck, reachedCheck, inside, below, kept⟩ := passed
      exact ⟨⟨_, _, barySlot, m, rfl, apart.bidTarget, apart.tidTarget, isCheck, reachedCheck,
        inside, isBranch, below, kept⟩⟩

end Emitted

end Mcfi
