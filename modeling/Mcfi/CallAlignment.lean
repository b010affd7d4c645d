import Mathlib.Tactic.IntervalCases
import Mcfi.JitCode

namespace Mcfi

open ByteMem

/-!
# The alignment of calls out of generated code

The verifier tests the address behind an mcficall in the buffer that it scans.  The
call returns to the address behind it in the heap.  In a fresh installation these
are the same; the buffer of a replacement is wherever `malloc` puts it.
-/

section Alignment

variable {v : Verifier} {table : ByteMem} {heap : CodeModule} {bytes : List UInt8}
  {bufferAddr installAddr : Nat} {checkTerminate : Bool}

/-- `accepts_mcficall`, behind the tests for the classes of direct branches. -/
def Instruction.IsMcficall (v : Verifier) (ins : Instruction) : Prop :=
  v.maxAccept < ins.state ∧ directWidth v ins.state = none ∧ v.mcficall = ins.state

/-- The installed return address of each mcficall is aligned. -/
def ReturnsAligned (v : Verifier) (bytes : List UInt8) (installAddr : Nat) : Prop :=
  ∀ ins ∈ instructions v bytes, ins.IsMcficall v → (installAddr + ins.stop) % 8 = 0

/-- What stops the process when an mcficall is not aligned. -/
def notAligned : Fault :=
  .quit "[verify] mcficall not aligned\n"

/--
The verifier lets a buffer pass only if its calls return to aligned addresses, and
rejects none for alignment when they do.
-/
structure JudgesAlignment (v : Verifier) (table : ByteMem) (heap : CodeModule)
    (bytes : List UInt8) (bufferAddr installAddr : Nat) (checkTerminate : Bool) : Prop where
  sound : ∀ tary, verifyJittedCode v table heap bytes bufferAddr installAddr
    checkTerminate = .ok tary → ReturnsAligned v bytes installAddr
  complete : ReturnsAligned v bytes installAddr →
    verifyJittedCode v table heap bytes bufferAddr installAddr checkTerminate ≠
      .error notAligned

/-- A round makes an alignment test for the mcficalls only. -/
theorem checkInstruction_notAligned {ins : Instruction} :
    checkInstruction v heap bytes bufferAddr installAddr ins = .error notAligned ↔
      ins.IsMcficall v ∧ (bufferAddr + ins.stop) % 8 ≠ 0 := by
  unfold checkInstruction Instruction.target Instruction.IsMcficall
  by_cases special : v.maxAccept < ins.state
  · cases direct : directWidth v ins.state with
    | some width =>
        simp only [special, if_true, Option.map_some, true_and]
        unfold check notAligned
        split <;> simp
    | none =>
        simp only [special, if_true, Option.map_none, true_and]
        split
        next misaligned => simp [notAligned, misaligned]
        next aligned => simpa using aligned
  · simp [special]

/-- A round that goes on has found an mcficall aligned. -/
theorem checkInstruction_aligned {ins : Instruction} {result : Unit}
    (checked : checkInstruction v heap bytes bufferAddr installAddr ins = .ok result)
    (isCall : ins.IsMcficall v) : (bufferAddr + ins.stop) % 8 = 0 := by
  by_contra misaligned
  rw [checkInstruction_notAligned.mpr ⟨isCall, misaligned⟩] at checked
  cases checked

/-- A scan that returns has found each mcficall aligned in its buffer. -/
theorem scanJitted_aligned {fuel ptr : Nat} {scan final : JitScan}
    (returned : scanJitted v heap bytes bufferAddr installAddr fuel ptr scan = .ok final) :
    ∀ ins ∈ cut v bytes fuel ptr, ins.IsMcficall v → (bufferAddr + ins.stop) % 8 = 0 := by
  induction fuel generalizing ptr scan with
  | zero => exact fun ins listed => nomatch listed
  | succ fuel inductionHypothesis =>
      intro ins listed isCall
      rw [cut] at listed
      split at listed
      next => cases listed
      next inside =>
        split at listed
        next state stop verified =>
          rw [scanJitted_round (Nat.lt_of_not_le inside) verified, bind_eq_ok] at returned
          obtain ⟨_, checked, later⟩ := returned
          rcases List.mem_cons.mp listed with rfl | rest
          · exact checkInstruction_aligned checked isCall
          · exact inductionHypothesis later ins rest isCall
        next => cases listed

/-- A scan that stops for alignment has met an mcficall that is not aligned. -/
theorem scanJitted_notAligned {fuel ptr : Nat} {scan : JitScan}
    (stopped : scanJitted v heap bytes bufferAddr installAddr fuel ptr scan =
      .error notAligned) :
    ∃ ins ∈ cut v bytes fuel ptr, ins.IsMcficall v ∧ (bufferAddr + ins.stop) % 8 ≠ 0 := by
  induction fuel generalizing ptr scan with
  | zero =>
      rw [scanJitted] at stopped
      split at stopped <;> cases stopped
  | succ fuel inductionHypothesis =>
      by_cases atEnd : bytes.length ≤ ptr
      · rw [scanJitted, if_pos atEnd] at stopped
        cases stopped
      have inside := Nat.lt_of_not_le atEnd
      by_cases found : ∃ state stop,
          verify v v.start ptr none (bytes.drop ptr) = (0, some (state, stop))
      · obtain ⟨state, stop, verified⟩ := found
        rw [scanJitted_round inside verified] at stopped
        have pieces : cut v bytes (fuel + 1) ptr =
            ⟨ptr, stop, state⟩ :: cut v bytes fuel stop := by
          rw [cut, if_neg atEnd, verified]
          rfl
        rw [pieces]
        cases checked : checkInstruction v heap bytes bufferAddr installAddr
            ⟨ptr, stop, state⟩ with
        | error fault =>
            rw [checked] at stopped
            obtain rfl : fault = notAligned := Except.error.inj stopped
            exact ⟨_, List.mem_cons_self, checkInstruction_notAligned.mp checked⟩
        | ok _ =>
            rw [checked] at stopped
            obtain ⟨ins, listed, misaligned⟩ := inductionHypothesis stopped
            exact ⟨ins, List.mem_cons_of_mem _ listed, misaligned⟩
      · rw [scanJitted_stuck inside fun state stop verified =>
          found ⟨state, stop, verified⟩] at stopped
        simp [notAligned] at stopped

/-- The mcficalls of a buffer that passes are aligned in it. -/
theorem verifyJittedCode_aligned {tary : List UInt8}
    (returned : verifyJittedCode v table heap bytes bufferAddr installAddr checkTerminate =
      .ok tary) :
    ReturnsAligned v bytes bufferAddr := by
  unfold verifyJittedCode at returned
  rw [bind_eq_ok] at returned
  obtain ⟨scan, scanned, -⟩ := returned
  exact scanJitted_aligned scanned

/-- A buffer that is rejected for alignment has an mcficall that is not aligned in it. -/
theorem verifyJittedCode_notAligned
    (stopped : verifyJittedCode v table heap bytes bufferAddr installAddr checkTerminate =
      .error notAligned) :
    ¬ ReturnsAligned v bytes bufferAddr := by
  intro aligned
  unfold verifyJittedCode at stopped
  cases scanned : scanJitted v heap bytes bufferAddr installAddr bytes.length 0 ⟨[], [], 0⟩ with
  | error fault =>
      rw [scanned] at stopped
      obtain rfl : fault = notAligned := Except.error.inj stopped
      obtain ⟨ins, listed, isCall, misaligned⟩ := scanJitted_notAligned scanned
      exact misaligned (aligned ins listed isCall)
  | ok scan =>
      rw [scanned] at stopped
      simp only [bind, Except.bind] at stopped
      split at stopped
      · simp [notAligned] at stopped
      · split at stopped <;> simp [notAligned, pure, Except.pure] at stopped

/-- Congruent addresses are aligned alike. -/
theorem returnsAligned_congr (congruent : bufferAddr % 8 = installAddr % 8) :
    ReturnsAligned v bytes bufferAddr ↔ ReturnsAligned v bytes installAddr := by
  refine forall₂_congr fun ins _ => imp_congr_right fun _ => ?_
  omega

/-- The code that an installation scans lies where it will run. -/
theorem installCode_aligned {index dst len : Nat} {runtime result : Runtime}
    (hasVerifier : heap.verifier = some v)
    (returned : installCode index heap dst len runtime = .ok result) :
    ReturnsAligned v (readImage runtime.image dst len) dst := by
  unfold installCode at returned
  rw [bind_eq_ok] at returned
  obtain ⟨_, -, returned⟩ := returned
  rw [hasVerifier] at returned
  simp only at returned
  rw [bind_eq_ok] at returned
  obtain ⟨tary, verified, -⟩ := returned
  exact verifyJittedCode_aligned verified

end Alignment

section Placement

/-- An automaton of a one-byte instruction and a one-byte mcficall. -/
def callVerifier : Verifier :=
  spreadVerifier fun index =>
    if index = 13 * 256 + 0x90 then 12
    else if index = 13 * 256 + 0xcc then 9
    else 0

/-- Instructions of one byte, and an mcficall that ends behind a number of bytes. -/
def callAt (stop : Nat) : List UInt8 :=
  List.replicate (stop - 1) 0x90 ++ [0xcc]

/-- In a buffer that is placed so, the call is aligned, and the code passes. -/
theorem callAt_passes (rest : Nat) (small : rest < 8) (installAddr : Nat) :
    (∃ tary, verifyJittedCode callVerifier (fun _ => 0) (exampleHeap callVerifier)
        (callAt (8 - rest)) rest installAddr false = .ok tary) ∧
      ⟨7 - rest, 8 - rest, 9⟩ ∈ instructions callVerifier (callAt (8 - rest)) := by
  interval_cases rest <;> exact ⟨⟨_, rfl⟩, by decide +kernel⟩

/-- What a scan finds depends on the alignment of the buffer only. -/
theorem scanJitted_congr {v : Verifier} {heap : CodeModule} {bytes : List UInt8}
    {bufferAddr other installAddr : Nat} (congruent : bufferAddr % 8 = other % 8)
    (fuel ptr : Nat) (scan : JitScan) :
    scanJitted v heap bytes bufferAddr installAddr fuel ptr scan =
      scanJitted v heap bytes other installAddr fuel ptr scan := by
  induction fuel generalizing ptr scan with
  | zero => rw [scanJitted, scanJitted]
  | succ fuel inductionHypothesis =>
      by_cases atEnd : bytes.length ≤ ptr
      · rw [scanJitted, scanJitted, if_pos atEnd, if_pos atEnd]
      have inside := Nat.lt_of_not_le atEnd
      by_cases found : ∃ state stop,
          verify v v.start ptr none (bytes.drop ptr) = (0, some (state, stop))
      · obtain ⟨state, stop, verified⟩ := found
        have sameCheck : checkInstruction v heap bytes bufferAddr installAddr
            ⟨ptr, stop, state⟩ =
              checkInstruction v heap bytes other installAddr ⟨ptr, stop, state⟩ := by
          have same : (bufferAddr + stop) % 8 = (other + stop) % 8 := by omega
          simp only [checkInstruction, same]
        rw [scanJitted_round inside verified, scanJitted_round inside verified, sameCheck]
        simp only [inductionHypothesis]
      · have refused := fun state stop verified => found ⟨state, stop, verified⟩
        rw [scanJitted_stuck inside refused, scanJitted_stuck inside refused]

/--
The verifier judges the alignment of every buffer right, exactly when the buffer is
aligned as the address it is scanned for; and in a buffer that it lets through, the
calls return to aligned addresses exactly then, or when there are none.
-/
theorem judgesAlignment_iff (bufferAddr installAddr : Nat) :
    ((∀ v table heap bytes checkTerminate,
        JudgesAlignment v table heap bytes bufferAddr installAddr checkTerminate) ↔
      bufferAddr % 8 = installAddr % 8) ∧
    ∀ v table heap bytes checkTerminate tary,
      verifyJittedCode v table heap bytes bufferAddr installAddr checkTerminate =
          .ok tary →
        (ReturnsAligned v bytes installAddr ↔ bufferAddr % 8 = installAddr % 8 ∨
          ∀ ins ∈ instructions v bytes, ¬ ins.IsMcficall v) := by
  have let_through (v : Verifier) (table : ByteMem) (heap : CodeModule) (bytes : List UInt8)
      (checkTerminate : Bool) (tary : List UInt8)
      (returned : verifyJittedCode v table heap bytes bufferAddr installAddr
        checkTerminate = .ok tary) :
      ReturnsAligned v bytes installAddr ↔ bufferAddr % 8 = installAddr % 8 ∨
        ∀ ins ∈ instructions v bytes, ¬ ins.IsMcficall v := by
    have inBuffer := verifyJittedCode_aligned returned
    constructor
    · intro installed
      by_cases calls : ∃ ins ∈ instructions v bytes, ins.IsMcficall v
      · obtain ⟨ins, listed, isCall⟩ := calls
        have here := inBuffer ins listed isCall
        have there := installed ins listed isCall
        exact .inl (by omega)
      · exact .inr fun ins listed isCall => calls ⟨ins, listed, isCall⟩
    · rintro (congruent | none)
      · exact (returnsAligned_congr congruent).mp inBuffer
      · exact fun ins listed isCall => absurd isCall (none ins listed)
  refine ⟨⟨fun judges => ?_, fun congruent v table heap bytes checkTerminate =>
    ⟨fun tary returned => ?_, fun aligned stopped => ?_⟩⟩, let_through⟩
  · -- a buffer whose only call is aligned at this place
    obtain ⟨⟨tary, passes⟩, listed⟩ :=
      callAt_passes (bufferAddr % 8) (Nat.mod_lt _ (by decide)) installAddr
    have returned : verifyJittedCode callVerifier (fun _ => 0) (exampleHeap callVerifier)
        (callAt (8 - bufferAddr % 8)) bufferAddr installAddr false = .ok tary := by
      rw [← passes]
      unfold verifyJittedCode
      rw [scanJitted_congr (Nat.mod_mod bufferAddr 8).symm]
    have aligned := (judges _ _ _ _ _).sound tary returned _ listed
      ⟨(by decide : callVerifier.maxAccept < (9 : UInt16)),
        (by decide : directWidth callVerifier 9 = none), rfl⟩
    simp only at aligned
    omega
  · exact (let_through v table heap bytes checkTerminate tary returned).mpr (.inl congruent)
  · exact verifyJittedCode_notAligned stopped ((returnsAligned_congr congruent).mpr aligned)

/-- A call that is aligned in its buffer, and not where it is installed. -/
theorem judgesAlignment_fails :
    ¬ ∀ (bufferAddr installAddr : Nat) v table heap bytes checkTerminate,
      JudgesAlignment v table heap bytes bufferAddr installAddr checkTerminate := by
  intro judges
  obtain ⟨⟨tary, passes⟩, listed⟩ := callAt_passes 0 (by decide) 0x400003
  have aligned := (judges 0 0x400003 _ _ _ _ _).sound tary passes _ listed
    ⟨by decide, by decide, rfl⟩
  exact absurd aligned (by decide)

/-- The same call, installed at an aligned address. -/
theorem judgesAlignment_iff_aligned :
    ReturnsAligned callVerifier (callAt 8) 0x400000 := by
  obtain ⟨⟨tary, passes⟩, -⟩ := callAt_passes 0 (by decide) 0x400000
  exact ((judgesAlignment_iff 0 0x400000).2 _ _ _ _ _ tary passes).mpr (.inl rfl)

end Placement

end Mcfi
