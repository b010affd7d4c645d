import Mcfi.BranchRuns

namespace Mcfi

open X86 Relation

/-!
# The Bary slots of the checks

`MCFIx64` counts the checks of a module, and a check reads the Bary slot with the number
that it found.  The numbers are recorded, those of returns and those of indirect calls.
-/

section Slots

/-- The slots with consecutive numbers. -/
def slotsFrom (moduleID : BitVec 64) (first count : Nat) : List (BitVec 64) :=
  (List.range' first count).map fun number => slotNumber moduleID (BitVec.ofNat 32 number)

/-- The Bary slots that the checks of some blocks read. -/
def slotsIn (mbbs : List MachineBasicBlock) : List (BitVec 64) :=
  mbbs.flatMap fun mbb => mbb.code.filterMap PassInst.readSlot

/-- How many branches a function has. -/
def MachineFunction.branches (f : MachineFunction) : Nat :=
  branchesIn f.mbbs

variable {moduleID : BitVec 64}

theorem slotNumber_inj {first second : Nat} (firstFits : first < 2 ^ 32)
    (secondFits : second < 2 ^ 32)
    (same : slotNumber moduleID (BitVec.ofNat 32 first) =
      slotNumber moduleID (BitVec.ofNat 32 second)) : first = second := by
  rw [slotNumber, slotNumber, BitVec.add_right_inj] at same
  have same := congrArg BitVec.toNat same
  simp only [BitVec.zeroExtend, BitVec.toNat_setWidth, BitVec.toNat_ofNat] at same
  omega

theorem slotsFrom_nodup {first count : Nat} (fits : first + count ≤ 2 ^ 32) :
    (slotsFrom moduleID first count).Nodup := by
  refine List.Nodup.map_on (fun number listed other isOther same => ?_) List.nodup_range'
  rw [List.mem_range'_1] at listed isOther
  exact slotNumber_inj (by omega) (by omega) same

theorem slotsFrom_append (first count more : Nat) :
    slotsFrom moduleID first count ++ slotsFrom moduleID (first + count) more =
      slotsFrom moduleID first (count + more) := by
  rw [slotsFrom, slotsFrom, ← List.map_append, List.range'_append_1, slotsFrom]

theorem slotsFrom_zero_append (first more : Nat) :
    slotsFrom moduleID 0 first ++ slotsFrom moduleID first more =
      slotsFrom moduleID 0 (first + more) := by
  have joined := @slotsFrom_append moduleID 0 first more
  rwa [Nat.zero_add] at joined

theorem slotsFrom_one (first : Nat) :
    slotsFrom moduleID first 1 = [slotNumber moduleID (BitVec.ofNat 32 first)] :=
  rfl

variable {state after : PassState} {mbb : MachineBasicBlock} {rest : List MachineBasicBlock}

theorem slotsIn_append (first second : List MachineBasicBlock) :
    slotsIn (first ++ second) = slotsIn first ++ slotsIn second :=
  List.flatMap_append

theorem slotsIn_cons (first : MachineBasicBlock) (second : List MachineBasicBlock) :
    slotsIn (first :: second) = first.code.filterMap PassInst.readSlot ++ slotsIn second :=
  List.flatMap_cons

/-- What comes in front of a check and behind it reads no slot. -/
theorem readSlot_checks (code : List Instr) :
    (code.map PassInst.check).filterMap PassInst.readSlot = [] := by
  rw [List.filterMap_eq_nil_iff]
  intro inst listed
  obtain ⟨instr, -, rfl⟩ := List.mem_map.mp listed
  rfl

theorem slotsIn_tailBlocks (branch : Place) (regs : CheckRegs) (isReturn : Bool) :
    slotsIn (tailBlocks branch regs isReturn) = [] := by
  have report : (mcfiX64Report branch regs isReturn).code.filterMap PassInst.readSlot = [] := by
    rw [mcfiX64Report]
    split <;> rfl
  simp only [tailBlocks, slotsIn_cons, report]
  rfl

/-- The branch that is replaced reads no slot. -/
theorem Replaces.readSlots {front : List PassInst} {next : Option MachineBasicBlock}
    {target : BranchTarget} {uses : List RegUse} {cj : Reg → BitVec 64 → PassInst}
    (replaces : Replaces mbb front next target uses cj) :
    mbb.code.filterMap PassInst.readSlot =
      front.filterMap PassInst.readSlot ++ slotsIn next.toList := by
  cases replaces with
  | lastCall code noExit attached isTarget =>
      rw [code, List.filterMap_append]
      rfl
  | call code attached isTarget =>
      rw [code, List.filterMap_append]
      exact congrArg _ (List.append_nil _).symm
  | exit => exact (List.append_nil _).symm

/-- A check reads one more slot. -/
theorem PassState.insertCheck_slots {front : List PassInst} {next : Option MachineBasicBlock}
    {branch : Place} {regs : CheckRegs} {truncation : List Instr} {cj : PassInst}
    {isReturn : Bool} {barySlot : BitVec 64} (isCj : cj.branchSlot = some barySlot)
    (shape : mbb.code.filterMap PassInst.readSlot =
      front.filterMap PassInst.readSlot ++ slotsIn next.toList) :
    (slotsIn ((state.insertCheck moduleID mbb front next rest branch regs truncation cj
        isReturn).visited ++ (state.insertCheck moduleID mbb front next rest branch regs
        truncation cj isReturn).pending)).Perm
      (slotNumber moduleID state.barySlot :: slotsIn (state.visited ++ mbb :: rest)) := by
  have icj : (mcfiX64ICJ branch regs cj (mbb.fallsBehind next)
      (mbb.succsBehind next)).code.filterMap PassInst.readSlot = [] := by
    rw [mcfiX64ICJ, List.filterMap_append, readSlot_checks]
    cases cj <;> first | rfl | cases isCj
  have idCmp : (mcfiX64IDCmp branch regs moduleID state.barySlot).code.filterMap
      PassInst.readSlot = [slotNumber moduleID state.barySlot] := rfl
  simp only [insertCheck, slotsIn_append, slotsIn_cons, List.filterMap_append, readSlot_checks,
    icj, idCmp, slotsIn_tailBlocks, shape, List.append_nil, List.nil_append, List.append_assoc,
    List.cons_append]
  rw [← List.append_assoc, ← List.append_assoc (slotsIn state.visited)]
  exact List.perm_middle

end Slots

section Counting

variable {moduleID : BitVec 64} {f : MachineFunction} {first total : Nat}
  {recorded : List (BitVec 64)} {state next after before : PassState}
  {mbb : MachineBasicBlock} {rest : List MachineBasicBlock}

/--
The pass between two blocks: its checks have the next slots, and each of them is recorded
behind what was recorded before.
-/
structure Counted (moduleID : BitVec 64) (first count : Nat) (recorded : List (BitVec 64))
    (state : PassState) : Prop where
  counter : state.barySlot = BitVec.ofNat 32 (first + count)
  reads : state.readSlots.Perm (slotsFrom moduleID first count)
  records : (state.returns ++ state.indirectCalls).Perm
    (recorded ++ slotsFrom moduleID first count)

/-- One more check is counted. -/
theorem Counted.insertCheck {count : Nat} (counted : Counted moduleID first count recorded state)
    (counter : next.barySlot = state.barySlot + 1)
    (reads : next.readSlots.Perm (slotNumber moduleID state.barySlot :: state.readSlots))
    (records : (next.returns ++ next.indirectCalls).Perm
      (slotNumber moduleID state.barySlot :: (state.returns ++ state.indirectCalls))) :
    Counted moduleID first (count + 1) recorded next := by
  have more : slotsFrom moduleID first (count + 1) =
      slotsFrom moduleID first count ++ [slotNumber moduleID state.barySlot] := by
    rw [← slotsFrom_append, slotsFrom_one, counted.counter]
  refine ⟨?_, ?_, ?_⟩
  · rw [counter, counted.counter, ← Nat.add_assoc, BitVec.ofNat_add (first + count) 1]
    rfl
  · rw [more]
    exact reads.trans ((counted.reads.cons _).trans (List.perm_append_singleton _ _).symm)
  · rw [more, ← List.append_assoc]
    exact records.trans ((counted.records.cons _).trans (List.perm_append_singleton _ _).symm)

/-- A visit counts at most one check, and then there is a branch less. -/
theorem Counted.visits {count : Nat} (counted : Counted moduleID first count recorded state)
    (pending : state.pending = mbb :: rest) (visits : Visits moduleID state mbb rest next) :
    ∃ more, Counted moduleID first (count + more) recorded next ∧
      more + branchesIn next.pending ≤ branchesIn state.pending := by
  have whole : branchesIn state.pending = mbb.branches + branchesIn rest := by
    rw [pending]
    exact List.sum_cons
  have slots : state.readSlots = slotsIn (state.visited ++ mbb :: rest) := by
    rw [← pending]
    rfl
  cases visits with
  | skip =>
      refine ⟨0, ⟨counted.counter, ?_, counted.records⟩, ?_⟩
      · refine .trans (.of_eq ?_) counted.reads
        rw [slots]
        exact congrArg slotsIn (List.append_cons ..).symm
      · rw [whole]
        exact Nat.zero_add _ ▸ Nat.le_add_left _ _
  | sigreturn isExit isRet =>
      refine ⟨0, ⟨counted.counter, ?_, counted.records⟩, ?_⟩
      · refine .trans (.of_eq ?_) counted.reads
        rw [slots]
        change slotsIn ((state.visited ++ [_]) ++ rest) = _
        simp only [slotsIn_append, slotsIn_cons, List.filterMap_append, List.append_assoc]
        rfl
      · rw [whole]
        exact Nat.zero_add _ ▸ Nat.le_add_left _ _
  | ret isExit isRet =>
      have one : 1 ≤ mbb.branches := by simp [MachineBasicBlock.branches, isExit]
      refine ⟨1, counted.insertCheck rfl ?_ ?_, ?_⟩
      · rw [slots]
        exact PassState.insertCheck_slots rfl (List.append_nil _).symm
      · change ((state.returns ++ [_]) ++ state.indirectCalls).Perm _
        rw [List.append_assoc]
        exact List.perm_middle
      · simp only [PassState.mcfiX64Ret]
        rw [PassState.insertCheck_branches rfl, whole]
        change 1 + (0 + branchesIn rest) ≤ _
        omega
  | branch replaces made =>
      obtain ⟨fewer, -, notCall⟩ := replaces.branches
      obtain rfl := PassState.mcfiX64IndirectCall_spec made
      refine ⟨1, counted.insertCheck rfl ?_ ?_, ?_⟩
      · rw [slots]
        exact PassState.insertCheck_slots (replaces.branchSlot _ _) replaces.readSlots
      · change (state.returns ++ (state.indirectCalls ++ [_])).Perm _
        rw [← List.append_assoc]
        exact List.perm_append_singleton _ _
      · simp only
        rw [PassState.insertCheck_branches (notCall _ _), whole]
        omega

/-- The blocks in front of the pass read no slot. -/
theorem MachineFunction.slotsIn_mbbs (f : MachineFunction) : slotsIn f.mbbs = [] := by
  refine List.flatMap_eq_nil_iff.mpr fun mbb listed => ?_
  obtain ⟨index, isMbb⟩ := List.mem_iff_getElem?.mp listed
  rw [f.mbbs_getElem?] at isMbb
  obtain ⟨block, -, rfl⟩ := Option.map_eq_some_iff.mp isMbb
  rw [List.filterMap_eq_nil_iff]
  intro inst isInst
  rcases FunctionBlock.inst_cases (List.mem_of_mem_drop isInst) with ⟨instr, rfl⟩ |
    ⟨instr, rfl⟩ | ⟨target, -, rfl⟩ <;> rfl

/-- What is compiled went through the pass. -/
theorem MachineFunction.compile_ok {pic : Bool}
    (made : f.compile pic moduleID before = some after) :
    PassState.mcfiX64 moduleID f.signalHandler {
      before with
      visited := []
      pending := f.mbbs
      loads32 := [] } = some after := by
  rw [compile] at made
  split at made
  · exact nomatch made
  · rename_i state passes
    rw [Option.ite_none_right_eq_some] at made
    exact passes.trans made.2

/-- The checks of a function have the next slots. -/
theorem counted_compile {pic : Bool} (counter : before.barySlot = BitVec.ofNat 32 first)
    (made : f.compile pic moduleID before = some after) :
    ∃ count ≤ f.branches,
      Counted moduleID first count (before.returns ++ before.indirectCalls) after := by
  let recorded := before.returns ++ before.indirectCalls
  let invariant (state : PassState) : Prop := ∃ count,
    Counted moduleID first count recorded state ∧ count + branchesIn state.pending ≤ f.branches
  have start : invariant {
      before with
      visited := []
      pending := f.mbbs
      loads32 := [] } := by
    refine ⟨0, ⟨counter, .of_eq f.slotsIn_mbbs, ?_⟩, Nat.le_of_eq (Nat.zero_add _)⟩
    exact .of_eq (List.append_nil _).symm
  have step : ∀ state mbb rest next, invariant state → state.pending = mbb :: rest →
      Visits moduleID state mbb rest next → invariant next := by
    rintro state mbb rest next ⟨count, counted, bounded⟩ pending visits
    obtain ⟨more, countedNext, fewer⟩ := counted.visits pending visits
    exact ⟨count + more, countedNext, by omega⟩
  obtain ⟨⟨count, counted, bounded⟩, -⟩ :=
    PassState.mcfiX64_run step start (f.compile_ok made)
  exact ⟨count, Nat.le_of_add_right_le bounded, counted⟩

/-- The checks of a module have consecutive slots, and all of them are recorded. -/
theorem compileModule_counted {pic : Bool} {fs : List MachineFunction}
    (made : compileModule pic moduleID fs = some after) :
    ∃ count ≤ (fs.map MachineFunction.branches).sum,
      after.barySlot = BitVec.ofNat 32 count ∧
        (after.returns ++ after.indirectCalls).Perm (slotsFrom moduleID 0 count) := by
  have general : ∀ (fs : List MachineFunction) (before : PassState) (first : Nat),
      before.barySlot = BitVec.ofNat 32 first →
        (before.returns ++ before.indirectCalls).Perm (slotsFrom moduleID 0 first) →
          fs.foldlM (fun before f => f.compile pic moduleID before) before = some after →
            ∃ count ≤ (fs.map MachineFunction.branches).sum,
              after.barySlot = BitVec.ofNat 32 (first + count) ∧
                (after.returns ++ after.indirectCalls).Perm
                  (slotsFrom moduleID 0 (first + count)) := by
    intro fs
    induction fs with
    | nil =>
        intro before first counter records made
        obtain rfl := Option.some.inj made
        exact ⟨0, Nat.le_refl _, counter, records⟩
    | cons f fs inductionHypothesis =>
        intro before first counter records made
        rw [List.foldlM_cons] at made
        obtain ⟨between, compiled, later⟩ := Option.bind_eq_some_iff.mp made
        obtain ⟨count, bounded, counted⟩ := counted_compile counter compiled
        have recorded := counted.records.trans (records.append_right _)
        rw [slotsFrom_zero_append] at recorded
        obtain ⟨more, fewer, counterAfter, recordedAfter⟩ :=
          inductionHypothesis between (first + count) counted.counter recorded later
        rw [Nat.add_assoc] at counterAfter recordedAfter
        refine ⟨count + more, ?_, counterAfter, recordedAfter⟩
        rw [List.map_cons, List.sum_cons]
        exact Nat.add_le_add bounded fewer
  obtain ⟨count, bounded, counter, records⟩ := general fs moduleStart 0 rfl .rfl made
  rw [Nat.zero_add] at counter records
  exact ⟨count, bounded, counter, records⟩

end Counting

section Guards

variable {moduleID : BitVec 64} {f : MachineFunction} {state after before : PassState}

/-- A branch with a slot stands behind the check that reads the slot. -/
theorem Laid.sameSlot {first second : MachineBasicBlock} (laid : Laid f moduleID state)
    (done : state.pending = []) (follows : [first, second] <:+: state.visited)
    {slot : BitVec 64} (isSlot : slot ∈ second.code.filterMap PassInst.branchSlot) :
    slot ∈ first.code.filterMap PassInst.readSlot := by
  have adjacent := laid.follows done follows
  have listed : second ∈ state.visited :=
    follows.subset (List.mem_cons_of_mem _ List.mem_cons_self)
  have placed := laid.placed second (List.mem_append_left _ listed)
  suffices isIcj : ∃ branch, second.label = .check branch .icj by
    obtain ⟨branch, isIcj⟩ := isIcj
    rw [Adjacent, isIcj] at adjacent
    exact adjacent.2 slot isSlot
  obtain ⟨inst, isInst, isBranch⟩ := List.mem_filterMap.mp isSlot
  have notPart {start : Place} (isPart : second.label = .part start) : False := by
    obtain ⟨block, length, prepare, found, -, part⟩ := placed.part isPart
    obtain ⟨index, atIndex⟩ := List.mem_iff_getElem?.mp isInst
    rcases part.inst_cases found atIndex with ⟨-, isFunction⟩ | ⟨-, rfl | ⟨instr, rfl, -⟩⟩
    · obtain ⟨home, -, inHome⟩ := f.inst_listed isFunction
      rcases FunctionBlock.inst_cases inHome with ⟨instr, rfl⟩ | ⟨instr, rfl⟩ |
        ⟨target, -, rfl⟩ <;> cases isBranch
    · cases isBranch
    · cases isBranch
  cases placed with
  | rest => exact (notPart rfl).elim
  | handler => exact (notPart rfl).elim
  | front => exact (notPart rfl).elim
  | icjCall => exact ⟨_, rfl⟩
  | icjExit => exact ⟨_, rfl⟩
  | idCmp => cases isSlot
  | interopCheck => cases isSlot
  | idValidityCheck => cases isSlot
  | verCheck => cases isSlot
  | report =>
      rcases List.mem_append.mp isInst with moved | last
      · split at moved
        · obtain rfl := List.mem_singleton.mp moved
          cases isBranch
        · cases moved
      · obtain rfl := List.mem_singleton.mp last
        cases isBranch

/--
Every return and indirect branch of a checkable function is reached through its check
only, in a module with at most `2 ^ 32` branches.
-/
theorem branches_guarded {pic : Bool} {earlier : List MachineFunction}
    (module : compileModule pic moduleID earlier = some before)
    (made : f.compile pic moduleID before = some after) (checkable : f.Checkable)
    (few : ((earlier ++ [f]).map MachineFunction.branches).sum ≤ 2 ^ 32) :
    after.Guarded pic moduleID := by
  obtain ⟨laid, done⟩ := PassState.mcfiX64_run
    (fun _ _ _ _ laid pending visits => Laid.visits checkable.live laid pending visits)
    (Laid.start f moduleID before) (f.compile_ok made)
  obtain ⟨first, bounded, counter, records⟩ := compileModule_counted module
  obtain ⟨count, boundedHere, counted⟩ := counted_compile counter made
  have fits : first + count ≤ 2 ^ 32 := by
    rw [List.map_append, List.sum_append, List.map_singleton, List.sum_singleton] at few
    omega
  have all : (after.returns ++ after.indirectCalls).Perm
      (slotsFrom moduleID 0 (first + count)) := by
    refine counted.records.trans ((records.append_right _).trans (.of_eq ?_))
    rw [slotsFrom_zero_append]
  have nodup : (after.returns ++ after.indirectCalls).Nodup :=
    all.nodup_iff.mpr (slotsFrom_nodup (by rwa [Nat.zero_add]))
  exact {
    checked := fun effect interprets entry s enters reached emitted inst emits listed
      indirect => Situation.checked laid done checkable interprets enters reached emits listed
        indirect
    ownSlot := counted.reads.nodup_iff.mpr (slotsFrom_nodup fits)
    recorded := by
      intro slot isRead
      refine List.count_eq_one_of_mem nodup (all.mem_iff.mpr ?_)
      rw [← slotsFrom_zero_append]
      exact List.mem_append_right _ (counted.reads.mem_iff.mp isRead)
    sameSlot := fun _ _ follows _ isSlot => laid.sameSlot done follows isSlot
  }

/-- The pass goes over one block. -/
theorem PassState.mcfiX64_visit {signalHandler : Bool} {mbb : MachineBasicBlock}
    {rest : List MachineBasicBlock} {next : PassState} {passed : Option PassState}
    (pending : state.pending = mbb :: rest)
    (visits : state.visit moduleID signalHandler mbb rest = some next)
    (later : next.mcfiX64 moduleID signalHandler = passed) :
    state.mcfiX64 moduleID signalHandler = passed := by
  rw [mcfiX64_cons pending, visits]
  exact later

theorem MachineFunction.compile_of_passes {pic : Bool}
    (passes : PassState.mcfiX64 moduleID f.signalHandler {
      before with
      visited := []
      pending := f.mbbs
      loads32 := [] } = some after)
    (emits : after.visited.all (MachineBasicBlock.emits pic) = true) :
    f.compile pic moduleID before = some after := by
  simp only [compile, passes, emits, if_true]

/-- A tail call through a register that is loaded from an object. -/
def loadedTailCall : FunctionBlock where
  body := [.plain (.mov64rm .rax ⟨some .rdi, 1, none, 8, none⟩)]
  jumps := []
  exit := .branch ⟨.tailJmpR64 .rax, [], some .call, false⟩
  succs := []

/-- A return that pops the arguments. -/
def poppingReturn : FunctionBlock where
  body := []
  jumps := []
  exit := .branch ⟨.retiq 8, [], none, false⟩
  succs := []

/-- A function with one block that is left by a branch. -/
def singleBlock (block : FunctionBlock) (noSuccs : block.succs = [])
    (noJumps : block.jumps = []) (leaves : block.exit ≠ .fallThrough) : MachineFunction where
  blocks := [block]
  signalHandler := false
  entry := by
    intro other listed
    rw [List.mem_singleton.mp listed, noSuccs]
    exact List.not_mem_nil
  jumps := by
    intro other listed target isJump
    rw [List.mem_singleton.mp listed, noJumps] at isJump
    exact nomatch isJump
  falls := by
    rintro (_ | index) other found falls
    · obtain rfl := Option.some.inj found
      exact absurd falls leaves
    · exact nomatch found

theorem loadedTailCall_checkable :
    (singleBlock loadedTailCall rfl rfl nofun).Checkable := by
  have onlyLoad : ∀ place inst, (singleBlock loadedTailCall rfl rfl nofun).inst? place =
      some inst → inst = .plain (.mov64rm .rax ⟨some .rdi, 1, none, 8, none⟩) := by
    intro place inst found
    obtain ⟨block, listed, isInst⟩ := MachineFunction.inst_listed found
    obtain rfl := List.mem_singleton.mp listed
    exact List.mem_singleton.mp isInst
  have unclobbered : ∀ place reg,
      ¬ (singleBlock loadedTailCall rfl rfl nofun).ClobbersAt place reg := by
    rintro place reg (⟨inst, found, clobbered⟩ | ⟨instr, target, isCall, -⟩)
    · rw [onlyLoad place inst found] at clobbered
      exact nomatch clobbered
    · exact nomatch onlyLoad place _ isCall
  refine ⟨fun place instr isCall => ?_, fun block listed exit isExit => ?_,
    fun place target uses isBranch => ?_, ⟨?_, ?_⟩⟩
  · exact nomatch onlyLoad place _ isCall
  · obtain rfl := List.mem_singleton.mp listed
    obtain rfl := Option.some.inj isExit
    rfl
  · rcases isBranch.found with ⟨instr, isCall, -⟩ | ⟨block, exit, found, -, isExit, isTarget, rfl⟩
    · exact nomatch onlyLoad place _ isCall
    · obtain rfl := List.mem_singleton.mp (List.mem_of_getElem? found)
      obtain rfl := Option.some.inj isExit
      obtain ⟨⟩ := isTarget
      exact ⟨by decide, by decide⟩
  · exact fun _ _ _ _ _ _ _ _ _ clobbers => absurd clobbers (unclobbered _ _)
  · intro _ _ _ _ _ pred block found isSucc
    obtain rfl := List.mem_singleton.mp (List.mem_of_getElem? found)
    exact nomatch isSucc

/-- The tail call is checked. -/
theorem branches_guarded_tailCall :
    ∃ after,
      (singleBlock loadedTailCall rfl rfl nofun).compile false 0 moduleStart = some after ∧
        after.Guarded false 0 := by
  obtain ⟨after, passes, emits⟩ : ∃ after, PassState.mcfiX64 0 false {
      moduleStart with
      visited := []
      pending := (singleBlock loadedTailCall rfl rfl nofun).mbbs
      loads32 := [] } = some after ∧
        after.visited.all (MachineBasicBlock.emits false) = true :=
    ⟨_, .trans (PassState.mcfiX64_visit rfl rfl (PassState.mcfiX64_visit rfl rfl
      (PassState.mcfiX64_visit rfl rfl (PassState.mcfiX64_visit rfl rfl
        (PassState.mcfiX64_visit rfl rfl (PassState.mcfiX64_visit rfl rfl
          (PassState.mcfiX64_visit rfl rfl (PassState.mcfiX64_nil rfl)))))))) rfl, rfl⟩
  have made : (singleBlock loadedTailCall rfl rfl nofun).compile false 0 moduleStart =
      some after := MachineFunction.compile_of_passes passes emits
  have module : compileModule false 0 [] = some moduleStart := rfl
  exact ⟨after, made, branches_guarded module made loadedTailCall_checkable
    (by decide +kernel)⟩

/-- A return that pops arguments is emitted without a check. -/
theorem branches_unguarded :
    ¬ ∀ (pic : Bool) (moduleID : BitVec 64) (earlier : List MachineFunction)
      (f : MachineFunction) (before after : PassState),
      compileModule pic moduleID earlier = some before →
        f.compile pic moduleID before = some after → after.Guarded pic moduleID := by
  intro guarded
  have made : (singleBlock poppingReturn rfl rfl nofun).compile false 0 moduleStart =
      some { moduleStart with visited := [poppingReturn.rest ⟨0, 0⟩] } :=
    MachineFunction.compile_of_passes
      (PassState.mcfiX64_visit rfl rfl (PassState.mcfiX64_nil rfl)) rfl
  let m : Machine := ⟨fun _ => 0, fun _ => 0, 0, 0, fun _ => 0, false, fun _ => 0⟩
  have checked := (guarded false 0 [] _ moduleStart _ rfl made).checked
    (fun _ m => m) ⟨fun _ _ _ _ _ => rfl, fun _ _ _ _ _ _ _ => rfl⟩
    ⟨poppingReturn.rest ⟨0, 0⟩, 0, m⟩ _ ⟨List.mem_cons_self, rfl, rfl⟩ .refl
    [.exit (.retiq 8) false] _ rfl List.mem_cons_self rfl
  obtain ⟨target, never, -⟩ := checked
  exact nomatch never

end Guards

end Mcfi
