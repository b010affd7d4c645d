import Mcfi.CodeHeap
import Mcfi.Lib.Tiling

namespace Mcfi

open ByteMem Tiling

/-!
# What the verifier accepts

`verify` runs the automaton and looks one byte ahead; `verify_jitted_code` cuts a
buffer into the strings that it returns and checks the targets of the direct
branches among them.
-/

section Instructions

variable (v : Verifier)

/-- The state of the automaton after a string. -/
def dfaRun (state : UInt16) (bytes : List UInt8) : UInt16 :=
  bytes.foldl (dfaLookup v) state

/-- An instruction may end in the state. -/
def accepting (state : UInt16) : Bool :=
  accepts v state || acceptsOthers v state

/-- The width of the offset at the end of a direct branch. -/
def directWidth (state : UInt16) : Option Nat :=
  if v.jmpRel1 == state || v.jccRel1 == state then some 1
  else if v.jmpRel4 == state || v.jccRel4 == state || v.dcall == state then
    some 4
  else none

/-- A string of a buffer with the state that it ends in. -/
structure Instruction where
  start : Nat
  stop : Nat
  state : UInt16
  deriving Repr, DecidableEq

/-- The automaton accepts the string with its state. -/
def Instruction.Accepted (bytes : List UInt8) (ins : Instruction) : Prop :=
  dfaRun v v.start ((bytes.drop ins.start).take (ins.stop - ins.start)) =
      ins.state ∧
    accepting v ins.state = true

/-- The target that `verify_jitted_code` computes for a direct branch. -/
def Instruction.target (bytes : List UInt8) (installAddr : Nat)
    (ins : Instruction) : Option Int :=
  if v.maxAccept < ins.state then
    (directWidth v ins.state).map (branchTarget bytes installAddr ins.stop)
  else
    none

end Instructions

section Verify

variable {v : Verifier}

/-- The automaton's run over a prefix reads its first byte first. -/
theorem dfaRun_take_cons
    (state : UInt16) (byte : UInt8) (rest : List UInt8) {position stop : Nat}
    (past : position < stop) :
    dfaRun v state ((byte :: rest).take (stop - position)) =
      dfaRun v (dfaLookup v state byte) (rest.take (stop - (position + 1))) := by
  obtain ⟨count, rfl⟩ := Nat.exists_eq_add_of_lt past
  have full : position + count + 1 - position = count + 1 := by omega
  have tail : position + count + 1 - (position + 1) = count := by omega
  rw [full, tail]
  rfl

/-- What `verify` stores is accepted from the state that it starts in. -/
theorem verify_stores
    {state last : UInt16} {position stop : Nat}
    {found : Option (UInt16 × Nat)} {bytes : List UInt8}
    (stored : (verify v state position found bytes).2 = some (last, stop)) :
    found = some (last, stop) ∨
      (position < stop ∧ stop ≤ position + bytes.length ∧
        dfaRun v state (bytes.take (stop - position)) = last ∧
        accepting v last = true) := by
  -- the string of one byte, in each case that accepts its state
  have single : ∀ (old : UInt16) (place : Nat) (byte : UInt8)
      (rest : List UInt8), accepting v (dfaLookup v old byte) = true →
      (dfaLookup v old byte, place + 1) = (last, stop) →
        place < stop ∧ stop ≤ place + (byte :: rest).length ∧
          dfaRun v old ((byte :: rest).take (stop - place)) = last ∧
          accepting v last = true := by
    intro old place byte rest isAccepting same
    cases same
    refine ⟨by omega, by simp, ?_, isAccepting⟩
    rw [dfaRun_take_cons _ _ _ (Nat.lt_succ_self place), Nat.sub_self]
    rfl
  fun_induction verify with
  | case1 => exact Or.inl stored
  | case2 old place start byte rest next running inductionHypothesis =>
      rcases inductionHypothesis stored with before | ⟨low, high, run, accepted⟩
      · exact Or.inl before
      · refine Or.inr ⟨by omega, by simp; omega, ?_, accepted⟩
        rw [dfaRun_take_cons _ _ _ (by omega)]
        exact run
  | case3 old place start byte next running plain =>
      refine Or.inr (single old place byte [] ?_ (Option.some.inj stored))
      exact Bool.or_eq_true_iff.mpr (Or.inl plain)
  | case4 old place start byte next running plain second later ahead alive
      inductionHypothesis =>
      rcases inductionHypothesis stored with here | ⟨low, high, run, accepted⟩
      · refine Or.inr (single old place byte _ ?_ (Option.some.inj here))
        exact Bool.or_eq_true_iff.mpr (Or.inl plain)
      · refine Or.inr ⟨by omega, by simp; omega, ?_, accepted⟩
        rw [dfaRun_take_cons _ _ _ (by omega), dfaRun_take_cons _ _ _ (by omega)]
        exact run
  | case5 old place start byte next running plain second later ahead stopped =>
      refine Or.inr (single old place byte _ ?_ (Option.some.inj stored))
      exact Bool.or_eq_true_iff.mpr (Or.inl plain)
  | case6 old place start byte rest next running notPlain special =>
      refine Or.inr (single old place byte rest ?_ (Option.some.inj stored))
      exact Bool.or_eq_true_iff.mpr (Or.inr special)
  | case7 => exact Or.inl stored

/-- What `verify` returns is accepted from the state that it starts in. -/
theorem verify_accepts
    {state last : UInt16} {code : Int} {position stop : Nat}
    {bytes : List UInt8}
    (returned : verify v state position none bytes =
      (code, some (last, stop))) :
    position < stop ∧ stop ≤ position + bytes.length ∧
      dfaRun v state (bytes.take (stop - position)) = last ∧
      accepting v last = true := by
  have stored : (verify v state position none bytes).2 = some (last, stop) := by
    rw [returned]
  rcases verify_stores stored with absurdly | accepted
  · cases absurdly
  · exact accepted

end Verify

section Scan

variable {v : Verifier} {heap : CodeModule} {bytes : List UInt8}
  {bufferAddr installAddr : Nat}

/-- What one round of the scan adds. -/
def JitScan.extend (scan : JitScan) (v : Verifier) (bytes : List UInt8)
    (installAddr : Nat) (ins : Instruction) : JitScan where
  boundaries := scan.boundaries ++ [ins.start]
  jmpTargets := scan.jmpTargets ++ (ins.target v bytes installAddr).toList
  state := ins.state

/-- The checks that one round of the scan makes. -/
def checkInstruction (v : Verifier) (heap : CodeModule) (bytes : List UInt8)
    (bufferAddr installAddr : Nat) (ins : Instruction) : Rt Unit :=
  match ins.target v bytes installAddr with
  | some target =>
      check "verify_jitted_code"
        (heap.baseAddr ≤ target && target < heap.baseAddr + heap.sz)
  | none =>
      if v.maxAccept < ins.state ∧ v.mcficall = ins.state ∧
          (bufferAddr + ins.stop) % 8 ≠ 0 then
        .error (.quit "[verify] mcficall not aligned\n")
      else
        .ok ()

/-- A round finds an instruction, checks it and goes on behind it. -/
theorem scanJitted_round
    {ptr stop : Nat} {state : UInt16} (inside : ptr < bytes.length)
    (verified : verify v v.start ptr none (bytes.drop ptr) =
      (0, some (state, stop)))
    (fuel : Nat) (scan : JitScan) :
    scanJitted v heap bytes bufferAddr installAddr (fuel + 1) ptr scan =
      (checkInstruction v heap bytes bufferAddr installAddr ⟨ptr, stop, state⟩
        >>= fun _ => scanJitted v heap bytes bufferAddr installAddr fuel stop
          (scan.extend v bytes installAddr ⟨ptr, stop, state⟩)) := by
  rw [scanJitted, if_neg (not_le.mpr inside), verified]
  change (if v.maxAccept < state then _ else _) = _
  rw [← directWidth]
  by_cases special : v.maxAccept < state
  · rw [if_pos special]
    cases direct : directWidth v state with
    | some width =>
        simp only [checkInstruction, Instruction.target, special, direct,
          if_true, Option.map_some, JitScan.extend, Option.toList_some]
        rfl
    | none =>
        simp only [checkInstruction, Instruction.target, special, direct,
          if_true, Option.map_none, JitScan.extend, Option.toList_none,
          List.append_nil, true_and, Bool.and_eq_true, beq_iff_eq,
          decide_eq_true_eq]
        split <;> rfl
  · simp only [checkInstruction, Instruction.target, special, if_false,
      JitScan.extend, Option.toList_none, List.append_nil, false_and]
    rfl

/-- A round that finds no instruction ends the process. -/
theorem scanJitted_stuck
    {ptr : Nat} (inside : ptr < bytes.length)
    (refused : ∀ state stop, verify v v.start ptr none (bytes.drop ptr) ≠
      (0, some (state, stop)))
    (fuel : Nat) (scan : JitScan) :
    scanJitted v heap bytes bufferAddr installAddr (fuel + 1) ptr scan =
      .error (.quit "verify_jitted_code") := by
  rw [scanJitted, if_neg (not_le.mpr inside)]
  simp only

/-- One round of a scan that returns. -/
theorem scanJitted_step
    {fuel ptr : Nat} {scan final : JitScan} (inside : ptr < bytes.length)
    (returned : scanJitted v heap bytes bufferAddr installAddr (fuel + 1) ptr
      scan = .ok final) :
    ∃ ins : Instruction, ins.start = ptr ∧ ptr < ins.stop ∧
      verify v v.start ptr none (bytes.drop ptr) =
        (0, some (ins.state, ins.stop)) ∧
      ins.stop ≤ bytes.length ∧ ins.Accepted v bytes ∧
      (∀ target, ins.target v bytes installAddr = some target →
        heap.baseAddr ≤ target ∧ target < heap.baseAddr + heap.sz) ∧
      scanJitted v heap bytes bufferAddr installAddr fuel ins.stop
        (scan.extend v bytes installAddr ins) = .ok final := by
  by_cases found : ∃ state stop,
      verify v v.start ptr none (bytes.drop ptr) = (0, some (state, stop))
  · obtain ⟨state, stop, verified⟩ := found
    obtain ⟨low, high, run, accepted⟩ := verify_accepts verified
    rw [List.length_drop] at high
    rw [scanJitted_round inside verified, bind_eq_ok] at returned
    obtain ⟨_, checked, later⟩ := returned
    refine ⟨⟨ptr, stop, state⟩, rfl, low, verified, ?_, ⟨run, accepted⟩, ?_,
      later⟩
    · change stop ≤ bytes.length
      omega
    · intro target isTarget
      rw [checkInstruction, isTarget] at checked
      simp only [check_eq_ok, Bool.and_eq_true, decide_eq_true_eq] at checked
      exact checked
  · rw [scanJitted_stuck inside fun state stop verified =>
      found ⟨state, stop, verified⟩] at returned
    cases returned

/-- The instructions that the verifier cuts the rest of a buffer into. -/
def cut (v : Verifier) (bytes : List UInt8) : Nat → Nat → List Instruction
  | 0, _ => []
  | fuel + 1, ptr =>
      if bytes.length ≤ ptr then
        []
      else
        match verify v v.start ptr none (bytes.drop ptr) with
        | (0, some (state, stop)) =>
            ⟨ptr, stop, state⟩ :: cut v bytes fuel stop
        | _ => []

/-- The instructions that the verifier cuts a buffer into. -/
def instructions (v : Verifier) (bytes : List UInt8) : List Instruction :=
  cut v bytes bytes.length 0

/-- What a scan knows of the instructions that it went over. -/
structure Scanned (v : Verifier) (heap : CodeModule) (bytes : List UInt8)
    (installAddr low : Nat) (before after : JitScan)
    (pieces : List Instruction) : Prop where
  tiles : Tiles Instruction.start Instruction.stop low bytes.length pieces
  accepted : ∀ ins ∈ pieces, ins.Accepted v bytes
  inHeap : ∀ ins ∈ pieces, ∀ target,
    ins.target v bytes installAddr = some target →
      heap.baseAddr ≤ target ∧ target < heap.baseAddr + heap.sz
  boundaries : after.boundaries =
    before.boundaries ++ pieces.map Instruction.start
  jmpTargets : after.jmpTargets =
    before.jmpTargets ++ pieces.filterMap (·.target v bytes installAddr)
  state : after.state = (pieces.getLast?.map Instruction.state).getD before.state

/-- A scan at the end of the buffer. -/
private theorem scanned_atEnd
    {ptr : Nat} {scan : JitScan} (within : ptr ≤ bytes.length)
    (atEnd : bytes.length ≤ ptr) :
    Scanned v heap bytes installAddr ptr scan scan [] :=
  ⟨Nat.le_antisymm within atEnd, by simp, by simp, by simp, by simp, rfl⟩

/-- A scan that returns has cut the rest of the buffer into instructions. -/
theorem scanJitted_ok
    {fuel ptr : Nat} {scan final : JitScan} (within : ptr ≤ bytes.length)
    (returned : scanJitted v heap bytes bufferAddr installAddr fuel ptr scan =
      .ok final) :
    Scanned v heap bytes installAddr ptr scan final (cut v bytes fuel ptr) := by
  induction fuel generalizing ptr scan with
  | zero =>
      unfold scanJitted at returned
      split at returned
      next atEnd =>
        cases returned
        exact scanned_atEnd within atEnd
      next => cases returned
  | succ fuel inductionHypothesis =>
      by_cases atEnd : bytes.length ≤ ptr
      · rw [scanJitted, if_pos atEnd] at returned
        cases returned
        rw [cut, if_pos atEnd]
        exact scanned_atEnd within atEnd
      · obtain ⟨ins, rfl, nonempty, verified, stops, accepted, inHeap, later⟩ :=
          scanJitted_step (not_le.mp atEnd) returned
        have scanned := inductionHypothesis stops later
        rw [cut, if_neg atEnd, verified]
        simp only
        generalize cut v bytes fuel ins.stop = rest at scanned ⊢
        refine ⟨⟨rfl, nonempty, scanned.tiles⟩, ?_, ?_, ?_, ?_, ?_⟩
        · exact List.forall_mem_cons.mpr ⟨accepted, scanned.accepted⟩
        · exact List.forall_mem_cons.mpr ⟨inHeap, scanned.inHeap⟩
        · rw [scanned.boundaries]
          simp [JitScan.extend]
        · rw [scanned.jmpTargets]
          cases targets : ins.target v bytes installAddr <;>
            simp [JitScan.extend, targets]
        · rw [scanned.state]
          cases rest with
          | nil => rfl
          | cons second others =>
              rw [List.getLast?_cons_cons]
              obtain ⟨last, isLast⟩ :=
                Option.isSome_iff_exists.mp (List.getLast?_isSome.mpr
                  (List.cons_ne_nil second others))
              rw [isLast]
              rfl

/-- The checks of a round contain no loop. -/
private theorem checkInstruction_finishes
    {ins : Instruction} {function : String} :
    checkInstruction v heap bytes bufferAddr installAddr ins ≠
      .error (.diverged function) := by
  unfold checkInstruction check
  split <;> split <;> exact fun absurdly => by cases absurdly

/-- The length of the buffer is fuel enough. -/
theorem scanJitted_finishes
    {fuel ptr : Nat} {scan : JitScan} (enough : bytes.length ≤ ptr + fuel) :
    scanJitted v heap bytes bufferAddr installAddr fuel ptr scan ≠
      .error (.diverged "verify_jitted_code") := by
  induction fuel generalizing ptr scan with
  | zero =>
      rw [scanJitted, if_pos (by omega)]
      exact fun absurdly => by cases absurdly
  | succ fuel inductionHypothesis =>
      by_cases inside : ptr < bytes.length
      · by_cases found : ∃ state stop,
            verify v v.start ptr none (bytes.drop ptr) = (0, some (state, stop))
        · obtain ⟨state, stop, verified⟩ := found
          have past := (verify_accepts verified).1
          rw [scanJitted_round inside verified]
          cases checked : checkInstruction v heap bytes bufferAddr installAddr
            ⟨ptr, stop, state⟩ with
          | ok => exact inductionHypothesis (by omega)
          | error fault =>
              intro diverged
              cases diverged
              exact checkInstruction_finishes checked
        · rw [scanJitted_stuck inside fun state stop verified =>
            found ⟨state, stop, verified⟩]
          exact fun absurdly => by cases absurdly
      · rw [scanJitted, if_pos (not_lt.mp inside)]
        exact fun absurdly => by cases absurdly

end Scan

section Soundness

variable (v : Verifier)

/-- The classes of direct branches with the widths of their offsets. -/
inductive DirectClass : UInt16 → Nat → Prop where
  | jmpRel1 : DirectClass v.jmpRel1 1
  | jccRel1 : DirectClass v.jccRel1 1
  | jmpRel4 : DirectClass v.jmpRel4 4
  | jccRel4 : DirectClass v.jccRel4 4
  | dcall : DirectClass v.dcall 4

/--
The layout of the accept classes: direct branches come after the contiguous
accept states, and no state has offsets of two widths.
-/
structure Verifier.Layout : Prop where
  special : ∀ state width, DirectClass v state width → v.maxAccept < state
  distinct : ∀ state width other, DirectClass v state width →
    DirectClass v state other → width = other

/-- Every direct branch is longer than its offset. -/
def Verifier.LongBranches : Prop :=
  ∀ bytes width, DirectClass v (dfaRun v v.start bytes) width →
    width < bytes.length

/-- The bytes that `verify_jitted_code` allocates for `jmp_targets`. -/
def jmpTargetsSize (size : Nat) : Nat :=
  2 * (size + 1)

/-- The buffer is cut into accepted instructions, with `DCV` at their starts. -/
structure CutCode (bytes tary : List UInt8) (pieces : List Instruction) :
    Prop where
  tiles : Tiles Instruction.start Instruction.stop 0 bytes.length pieces
  accepted : ∀ ins ∈ pieces, ins.Accepted v bytes
  length : tary.length = bytes.length
  boundaries : ∀ k < bytes.length,
    tary[k]? = some (UInt8.ofNat DCV) ↔ ∃ ins ∈ pieces, ins.start = k

/-- What a returned verification says of the buffer. -/
structure VerifiedCode (table : ByteMem) (heap : CodeModule)
    (bytes : List UInt8) (installAddr : Nat) (tary : List UInt8)
    (pieces : List Instruction) : Prop extends CutCode v bytes tary pieces where
  targets : ∀ ins ∈ pieces, ∀ width, DirectClass v ins.state width →
    ∃ target : Nat,
      branchTarget bytes installAddr ins.stop width = target ∧
        heap.Holds target ∧
        (target < installAddr ∨ installAddr + bytes.length ≤ target →
          table target = UInt8.ofNat DCV) ∧
        (installAddr ≤ target → target < installAddr + bytes.length →
          tary[target - installAddr]? = some (UInt8.ofNat DCV))

variable {v} {table : ByteMem} {heap : CodeModule} {bytes tary : List UInt8}
  {bufferAddr installAddr : Nat} {checkTerminate : Bool}

theorem DirectClass.pos
    {state : UInt16} {width : Nat} (direct : DirectClass v state width) :
    0 < width := by
  cases direct <;> decide

/-- The classes of direct branches are those that the scan looks for. -/
theorem DirectClass.width
    (layout : v.Layout) {state : UInt16} {width : Nat}
    (direct : DirectClass v state width) : directWidth v state = some width := by
  unfold directWidth
  split
  next short =>
    rw [Bool.or_eq_true, beq_iff_eq, beq_iff_eq] at short
    have one : DirectClass v state 1 := by
      rcases short with rfl | rfl
      · exact .jmpRel1
      · exact .jccRel1
    rw [layout.distinct state width 1 direct one]
  next notShort =>
    cases direct <;> simp at notShort ⊢

/-- The scan computes the target of every direct branch. -/
theorem DirectClass.target
    (layout : v.Layout) {ins : Instruction} {width : Nat}
    (direct : DirectClass v ins.state width) :
    ins.target v bytes installAddr =
      some (branchTarget bytes installAddr ins.stop width) := by
  rw [Instruction.target, if_pos (layout.special _ _ direct),
    direct.width layout, Option.map_some]

/-- The states whose targets the scan computes are direct branches. -/
theorem directClass_of_target
    {ins : Instruction} {target : Int}
    (found : ins.target v bytes installAddr = some target) :
    ∃ width, DirectClass v ins.state width := by
  unfold Instruction.target at found
  split at found
  next =>
    obtain ⟨width, isDirect, _⟩ := Option.map_eq_some_iff.mp found
    unfold directWidth at isDirect
    split at isDirect
    next short =>
      rw [Bool.or_eq_true, beq_iff_eq, beq_iff_eq] at short
      rcases short with same | same
      · exact ⟨1, same ▸ .jmpRel1⟩
      · exact ⟨1, same ▸ .jccRel1⟩
    next =>
      split at isDirect
      next long =>
        simp only [Bool.or_eq_true, beq_iff_eq] at long
        rcases long with (same | same) | same
        · exact ⟨4, same ▸ .jmpRel4⟩
        · exact ⟨4, same ▸ .jccRel4⟩
        · exact ⟨4, same ▸ .dcall⟩
      next => cases isDirect
  next => cases found

/-- Where the boundary buffer has `DCV`. -/
theorem boundaryBytes_dcv
    {length k : Nat} {boundaries : List Nat} (below : k < length) :
    (boundaryBytes length boundaries)[k]? = some (UInt8.ofNat DCV) ↔
      k ∈ boundaries := by
  have notZero : (0 : UInt8) ≠ UInt8.ofNat DCV := by decide
  rw [boundaryBytes, List.getElem?_map, List.getElem?_range below,
    Option.map_some, Option.some.injEq]
  split
  next listed => simp [listed]
  next absent => simp [absent, notZero]

/-- What `verify_jitted_code` has found when it returns. -/
theorem verifyJittedCode_scan
    (returned : verifyJittedCode v table heap bytes bufferAddr installAddr
      checkTerminate = .ok tary) :
    ∃ scan,
      scanJitted v heap bytes bufferAddr installAddr bytes.length 0
        ⟨[], [], 0⟩ = .ok scan ∧
      Scanned v heap bytes installAddr 0 ⟨[], [], 0⟩ scan
        (instructions v bytes) ∧
      (checkTerminate = true → terminates v scan.state = true) ∧
      tary = boundaryBytes bytes.length scan.boundaries ∧
      ∀ target ∈ scan.jmpTargets,
        heap.Holds (target.toNat % 2 ^ 32) ∧
          if target.toNat % 2 ^ 32 < installAddr % 2 ^ 32 ∨
              installAddr % 2 ^ 32 + bytes.length ≤ target.toNat % 2 ^ 32 then
            table (target.toNat % 2 ^ 32) = UInt8.ofNat DCV
          else
            tary.getD (target.toNat % 2 ^ 32 - installAddr % 2 ^ 32) 0 =
              UInt8.ofNat DCV := by
  unfold verifyJittedCode at returned
  rw [bind_eq_ok] at returned
  obtain ⟨scan, scans, returned⟩ := returned
  refine ⟨scan, scans, scanJitted_ok (Nat.zero_le _) scans, ?_⟩
  simp only at returned
  split at returned
  next => cases returned
  next ends =>
    split at returned
    next allGood =>
      cases returned
      refine ⟨?_, rfl, fun target listed => ?_⟩
      · intro asked
        simpa [asked] using ends
      · have good := List.all_eq_true.mp allGood target listed
        split at good
        next inHeap =>
          refine ⟨inHeap, ?_⟩
          split at good
          next outside => rw [if_pos outside]; exact beq_iff_eq.mp good
          next inside => rw [if_neg inside]; exact beq_iff_eq.mp good
        next => cases good
    next => cases returned

/-- A buffer that `verify_jitted_code` returns for is cut into instructions. -/
theorem cutCode_of_returned
    (returned : verifyJittedCode v table heap bytes bufferAddr installAddr
      checkTerminate = .ok tary) :
    CutCode v bytes tary (instructions v bytes) := by
  obtain ⟨scan, _, scanned, _, rfl, _⟩ := verifyJittedCode_scan returned
  have starts : scan.boundaries = (instructions v bytes).map Instruction.start :=
    scanned.boundaries
  refine ⟨scanned.tiles, scanned.accepted, by simp [boundaryBytes], ?_⟩
  intro k below
  rw [boundaryBytes_dcv below, starts, List.mem_map]

/-- The direct branches of a verified buffer meet boundaries of the heap. -/
theorem verifiedCode_of_returned
    (layout : v.Layout) (heapInside : heap.baseAddr + heap.sz ≤ fourGB)
    (inHeap : installAddr + bytes.length ≤ heap.baseAddr + heap.sz)
    (returned : verifyJittedCode v table heap bytes bufferAddr installAddr
      checkTerminate = .ok tary) :
    ∃ scan,
      scanJitted v heap bytes bufferAddr installAddr bytes.length 0
        ⟨[], [], 0⟩ = .ok scan ∧
      scan.jmpTargets =
        (instructions v bytes).filterMap (·.target v bytes installAddr) ∧
      VerifiedCode v table heap bytes installAddr tary (instructions v bytes) ∧
      (checkTerminate = true →
        ∀ ins, (instructions v bytes).getLast? = some ins →
          terminates v ins.state = true) := by
  have cutCode := cutCode_of_returned returned
  obtain ⟨scan, scans, scanned, ends, rfl, good⟩ :=
    verifyJittedCode_scan returned
  have targets : scan.jmpTargets =
      (instructions v bytes).filterMap (·.target v bytes installAddr) :=
    scanned.jmpTargets
  refine ⟨scan, scans, targets, ?_, ?_⟩
  · refine ⟨cutCode, ?_⟩
    · intro ins member width direct
      have computed : ins.target v bytes installAddr =
          some (branchTarget bytes installAddr ins.stop width) :=
        direct.target layout
      obtain ⟨aboveBase, belowEnd⟩ := scanned.inHeap ins member _ computed
      have listed : branchTarget bytes installAddr ins.stop width ∈
          scan.jmpTargets := by
        rw [targets]
        exact List.mem_filterMap.mpr ⟨ins, member, computed⟩
      obtain ⟨holds, boundary⟩ := good _ listed
      obtain ⟨target, targetIs⟩ := Int.eq_ofNat_of_zero_le
        (Int.le_trans (Int.natCast_nonneg heap.baseAddr) aboveBase)
      have nonempty := scanned.tiles.inside member
      rw [targetIs] at aboveBase belowEnd holds boundary ⊢
      have targetSmall : target % 2 ^ 32 = target := by
        simp only [fourGB] at heapInside
        omega
      have installSmall : installAddr % 2 ^ 32 = installAddr := by
        simp only [fourGB] at heapInside
        omega
      rw [Int.toNat_natCast, targetSmall, installSmall] at boundary
      rw [Int.toNat_natCast, targetSmall] at holds
      refine ⟨target, rfl, holds, fun outside => ?_, fun above below => ?_⟩
      · rw [if_pos outside] at boundary
        exact boundary
      · rw [if_neg (by omega)] at boundary
        have inBuffer : target - installAddr < (boundaryBytes bytes.length
            scan.boundaries).length := by
          simp only [boundaryBytes, List.length_map, List.length_range]
          omega
        rw [List.getD_eq_getElem?_getD, List.getElem?_eq_getElem inBuffer,
          Option.getD_some] at boundary
        rw [List.getElem?_eq_getElem inBuffer, boundary]
  · intro asked ins isLast
    have stateIs := scanned.state
    rw [isLast, Option.map_some, Option.getD_some] at stateIs
    exact stateIs ▸ ends asked

/-- The targets that a scan computes fit into `jmp_targets`. -/
theorem jmpTargets_fit
    (long : v.LongBranches) {pieces : List Instruction}
    (tiles : Tiles Instruction.start Instruction.stop 0 bytes.length pieces)
    (accepted : ∀ ins ∈ pieces, ins.Accepted v bytes) {k : Nat}
    (below : k < (pieces.filterMap (·.target v bytes installAddr)).length) :
    4 * k + 4 ≤ jmpTargetsSize bytes.length := by
  have wide : ∀ ins ∈ pieces,
      (ins.target v bytes installAddr).isSome = true →
        ins.start + 2 ≤ ins.stop := by
    intro ins member hasTarget
    obtain ⟨target, found⟩ := Option.isSome_iff_exists.mp hasTarget
    obtain ⟨width, direct⟩ := directClass_of_target found
    have nonempty := tiles.inside member
    have longer := long ((bytes.drop ins.start).take (ins.stop - ins.start))
      width ((accepted ins member).1 ▸ direct)
    have offset := direct.pos
    rw [List.length_take, List.length_drop] at longer
    omega
  have fits := tiles.mul_countP_le
    (fun ins => (ins.target v bytes installAddr).isSome) 2 wide
  rw [List.length_filterMap_eq_countP] at below
  simp only [jmpTargetsSize]
  omega

/--
Installing code is sound: what a returned verification marks is a partition into
accepted instructions that ends with a terminator, whose direct branches meet
boundaries, and `jmp_targets` was long enough for them.
-/
theorem verifyJittedCode_sound
    (layout : v.Layout) (long : v.LongBranches)
    (heapInside : heap.baseAddr + heap.sz ≤ fourGB)
    (inHeap : installAddr + bytes.length ≤ heap.baseAddr + heap.sz)
    (returned : verifyJittedCode v table heap bytes bufferAddr installAddr
      true = .ok tary) :
    ∃ scan pieces,
      scanJitted v heap bytes bufferAddr installAddr bytes.length 0
        ⟨[], [], 0⟩ = .ok scan ∧
      VerifiedCode v table heap bytes installAddr tary pieces ∧
      (∀ ins, pieces.getLast? = some ins → terminates v ins.state = true) ∧
      ∀ k < scan.jmpTargets.length, 4 * k + 4 ≤ jmpTargetsSize bytes.length := by
  obtain ⟨scan, scans, targets, verified, ends⟩ :=
    verifiedCode_of_returned layout heapInside inHeap returned
  refine ⟨scan, _, scans, verified, ends rfl, fun k below => ?_⟩
  rw [targets] at below
  exact jmpTargets_fit long verified.tiles verified.accepted below

end Soundness

section Examples

/-- An automaton with every class apart and the given transitions. -/
def spreadVerifier (dfa : Nat → UInt16) : Verifier where
  dfa := dfa
  start := 13
  dcall := 2
  icall := 3
  ijmp := 4
  jmpRel1 := 5
  jmpRel4 := 6
  jccRel1 := 7
  jccRel4 := 8
  mcficall := 9
  mcficheck := 10
  mcfiret := 11
  terminator := 12
  maxAccept := 1

/-- Its classes of direct branches. -/
theorem direct_spreadVerifier
    {dfa : Nat → UInt16} {state : UInt16} {width : Nat}
    (direct : DirectClass (spreadVerifier dfa) state width) :
    state ∈ [5, 7, 6, 8, 2] ∧
      width = if state = 5 ∨ state = 7 then 1 else 4 := by
  cases direct <;> simp [spreadVerifier]

theorem layout_spreadVerifier (dfa : Nat → UInt16) :
    (spreadVerifier dfa).Layout where
  special := by
    intro state width direct
    cases direct <;> simp [spreadVerifier]
  distinct := by
    intro state width other direct again
    rw [(direct_spreadVerifier direct).2, (direct_spreadVerifier again).2]

/-- An automaton without direct branches has no short ones. -/
theorem longBranches_spreadVerifier
    {dfa : Nat → UInt16} (plain : ∀ index, dfa index ∉ [5, 7, 6, 8, 2]) :
    (spreadVerifier dfa).LongBranches := by
  intro bytes width direct
  have listed := (direct_spreadVerifier direct).1
  rcases List.eq_nil_or_concat bytes with rfl | ⟨front, byte, rfl⟩
  · exact absurd listed (by decide : (13 : UInt16) ∉ [5, 7, 6, 8, 2])
  · rw [List.concat_eq_append, dfaRun, List.foldl_append, List.foldl_cons,
      List.foldl_nil, dfaLookup] at listed
    exact absurd listed (plain _)

/-- A heap for the examples. -/
def exampleHeap (v : Verifier) : CodeModule :=
  { allocCodeModule with
    baseAddr := 0x400000
    sz := 0x1000
    codeHeap := true
    verifier := some v
    baseAligned := programBase_aligned
    sizeAligned := page_aligned }

/-- An automaton whose direct jump is its offset alone. -/
def bareJump : Verifier :=
  spreadVerifier fun index => if index = 13 * 256 + 0xff then 5 else 0

/-- Two of its jumps overrun `jmp_targets`. -/
theorem jmpTargets_overrun :
    ¬ ∀ (v : Verifier) (table : ByteMem) (heap : CodeModule)
        (bytes tary : List UInt8) (bufferAddr installAddr : Nat),
      v.Layout → heap.baseAddr + heap.sz ≤ fourGB →
      heap.baseAddr ≤ installAddr →
      installAddr + bytes.length ≤ heap.baseAddr + heap.sz →
      verifyJittedCode v table heap bytes bufferAddr installAddr true =
        .ok tary →
      ∃ scan pieces,
        scanJitted v heap bytes bufferAddr installAddr bytes.length 0
          ⟨[], [], 0⟩ = .ok scan ∧
        VerifiedCode v table heap bytes installAddr tary pieces ∧
        (∀ ins, pieces.getLast? = some ins → terminates v ins.state = true) ∧
        ∀ k < scan.jmpTargets.length,
          4 * k + 4 ≤ jmpTargetsSize bytes.length := by
  intro sound
  have returned : verifyJittedCode bareJump (fun _ => 0) (exampleHeap bareJump)
      [0xff, 0xff] 0x400000 0x400000 true =
        .ok [UInt8.ofNat DCV, UInt8.ofNat DCV] := by
    rfl
  have two : (scanJitted bareJump (exampleHeap bareJump) [0xff, 0xff] 0x400000
      0x400000 2 0 ⟨[], [], 0⟩).toOption.map (·.jmpTargets.length) = some 2 := by
    decide +kernel
  obtain ⟨scan, pieces, scans, _, _, fits⟩ := sound bareJump _ _ _ _ _ _
    (layout_spreadVerifier _) (by decide) (by decide) (by decide) returned
  simp only [List.length_cons, List.length_nil] at scans
  rw [scans] at two
  simp only [Except.toOption, Option.map_some, Option.some.injEq] at two
  exact absurd (fits 1 (by omega)) (by decide)

/-- An automaton whose direct jump is an opcode and a one-byte offset. -/
def shortJump : Verifier :=
  spreadVerifier fun index =>
    if index = 13 * 256 + 0xeb then 14
    else if 14 * 256 ≤ index ∧ index < 15 * 256 then 5
    else 0

theorem longBranches_shortJump : shortJump.LongBranches := by
  have next : ∀ state byte, dfaLookup shortJump state byte = 14 ∨
      dfaLookup shortJump state byte = 0 ∨
      (dfaLookup shortJump state byte = 5 ∧ state ≠ 13) := by
    intro state byte
    have byteBelow := byte.toNat_lt
    simp only [dfaLookup, shortJump, spreadVerifier]
    split
    next => exact Or.inl rfl
    next =>
      split
      next inRow =>
        refine Or.inr (Or.inr ⟨rfl, ?_⟩)
        rintro rfl
        have start : (13 : UInt16).toNat = 13 := by decide
        omega
      next => exact Or.inr (Or.inl rfl)
  intro bytes width direct
  obtain ⟨listed, widthIs⟩ := direct_spreadVerifier direct
  rcases List.eq_nil_or_concat bytes with rfl | ⟨front, byte, rfl⟩
  · exact absurd listed (by decide)
  · rw [List.concat_eq_append] at listed widthIs ⊢
    have last : dfaRun shortJump shortJump.start (front ++ [byte]) =
        dfaLookup shortJump (dfaRun shortJump shortJump.start front) byte := by
      simp [dfaRun]
    rw [last] at listed widthIs
    rcases next (dfaRun shortJump shortJump.start front) byte with
      same | same | ⟨same, started⟩
    · exact absurd (same ▸ listed) (by decide)
    · exact absurd (same ▸ listed) (by decide)
    · rw [same, if_pos (by decide)] at widthIs
      have notEmpty : front ≠ [] := by
        rintro rfl
        exact started rfl
      have frontLength := List.length_pos_iff.mpr notEmpty
      rw [List.length_append, List.length_singleton, widthIs]
      omega

/-- Installing a jump to itself. -/
theorem verifyJittedCode_sound_jump :
    ∃ scan pieces,
      scanJitted shortJump (exampleHeap shortJump) [0xeb, 0xfe] 0x400000
        0x400000 2 0 ⟨[], [], 0⟩ = .ok scan ∧
      VerifiedCode shortJump (fun _ => 0) (exampleHeap shortJump) [0xeb, 0xfe]
        0x400000 [UInt8.ofNat DCV, 0] pieces ∧
      (∀ ins, pieces.getLast? = some ins →
        terminates shortJump ins.state = true) ∧
      ∀ k < scan.jmpTargets.length, 4 * k + 4 ≤ jmpTargetsSize 2 := by
  have returned : verifyJittedCode shortJump (fun _ => 0)
      (exampleHeap shortJump) [0xeb, 0xfe] 0x400000 0x400000 true =
        .ok [UInt8.ofNat DCV, 0] := by
    rfl
  exact verifyJittedCode_sound (layout_spreadVerifier _) longBranches_shortJump
    (by decide) (by decide) returned

end Examples

end Mcfi
