import Mcfi.MoveCode

namespace Mcfi

open ByteMem

/-!
# The code that a move leaves

`move_code` makes code of the bytes that lie at the target.  They are verified code
exactly if they are the bytes of the source, and then each direct branch among them
leads as far away from its old target as the code was moved.
-/

section Verified

/-- Every byte that is marked as code belongs to an instruction that was verified. -/
structure VerifiedHeap (v : Verifier) (runtime : Runtime) (heap : CodeModule)
    (record : CodeRecord) : Prop
    extends HeapSound v runtime.image runtime.table record heap where
  fits : v.Fits heap
  covered : ∀ addr, heap.Holds addr →
    marked heap.codeDataBitmap (addr - heap.baseAddr) = true →
      ∃ start ins, heap.Holds start ∧ record start = some ins ∧ start ≤ addr ∧
        addr < ins.stop

/-- A direct branch of the source of a move that leads to a boundary. -/
structure ValidBranch (v : Verifier) (runtime : Runtime) (heap : CodeModule)
    (record : CodeRecord) (source length : Nat) (ins : Instruction) (width meant : Nat) :
    Prop where
  above : source ≤ ins.start
  below : ins.stop ≤ source + length
  inHeap : heap.Holds ins.start
  recorded : record ins.start = some ins
  direct : DirectClass v ins.state width
  computed : branchTargetIn runtime.image ins.stop width = meant
  holds : heap.Holds meant
  boundary : runtime.table meant = UInt8.ofNat DCV

/--
What becomes code are the verified bytes of the source, and its valid branches are
valid at their new addresses.
-/
structure MovesVerified (v : Verifier) (runtime result : Runtime) (index : Nat)
    (heap : CodeModule) (record : CodeRecord) (target source length : Nat) : Prop where
  marks : ∃ after, result.modules[index]? = some after ∧
    (∀ i < length, marked after.codeDataBitmap (target + i - heap.baseAddr) = true) ∧
    ∀ k, marked after.codeDataBitmap k = true →
      marked heap.codeDataBitmap k = true ∨ InSpan target length (heap.baseAddr + k)
  bytes : ∀ i < length,
    marked heap.codeDataBitmap (source + i - heap.baseAddr) = true ∧
      result.image (target + i) = runtime.image (source + i)
  branches : ∀ ins width meant,
    ValidBranch v runtime heap record source length ins width meant →
      ∃ moved : Nat,
        branchTargetIn result.image (target + (ins.stop - source)) width = moved ∧
          heap.Holds moved ∧ result.table moved = UInt8.ofNat DCV

/-- A boundary is copied to the address, or stands there outside the moved words. -/
def BoundaryBehind (table : ByteMem) (target source length query : Nat) : Prop :=
  if InSpan target (wordBytes length) query ∧
      Copies table (source / 8 * 8 + (query - target) / 8 * 8) then
    table (source / 8 * 8 + (query - target)) = UInt8.ofNat DCV
  else
    ¬ InSpan (source / 8 * 8) (wordBytes length) query ∧
      table query = UInt8.ofNat DCV

instance (table : ByteMem) (target source length query : Nat) :
    Decidable (BoundaryBehind table target source length query) :=
  inferInstanceAs (Decidable (if InSpan target (wordBytes length) query ∧
      Copies table (source / 8 * 8 + (query - target) / 8 * 8) then
    table (source / 8 * 8 + (query - target)) = UInt8.ofNat DCV
  else
    ¬ InSpan (source / 8 * 8) (wordBytes length) query ∧
      table query = UInt8.ofNat DCV))

/--
The state before: all of the source is code, its bytes lie at the target already,
and at the distance of the move from each target of its branches a boundary is.
-/
structure FitsCode (v : Verifier) (runtime : Runtime) (heap : CodeModule)
    (record : CodeRecord) (target source length : Nat) : Prop where
  code : ∀ i < length, marked heap.codeDataBitmap (source + i - heap.baseAddr) = true
  bytes : ∀ i < length, runtime.image (target + i) = runtime.image (source + i)
  branches : ∀ ins width meant,
    ValidBranch v runtime heap record source length ins width meant →
      ∃ moved : Nat, moved + source = meant + target ∧ heap.Holds moved ∧
        BoundaryBehind runtime.table target source length moved

variable {v : Verifier} {runtime : Runtime} {heap : CodeModule} {record : CodeRecord}
  {target source length : Nat}

/-- Code is not moved into itself. -/
theorem apart_of_code
    (code : ∀ i < length, marked heap.codeDataBitmap (source + i - heap.baseAddr) = true)
    (isData : whichArea heap.codeDataBitmap (target - heap.baseAddr) length = .data) :
    target ≤ source ∨ source + length ≤ target := by
  by_contra overlaps
  have inside : target - source < length := by omega
  have clear := (whichArea_data_iff (by omega)).mp isData 0 (by omega) fun later => by
    have above := later.2.1
    omega
  have isMarked := code (target - source) inside
  rw [Nat.add_sub_cancel' (by omega)] at isMarked
  rw [Nat.add_zero, isMarked] at clear
  exact Bool.noConfusion clear

/-- The boundaries behind a move of code. -/
theorem moveWords_boundary (aligned : target % 8 = 0)
    (apart : target ≤ source ∨ source + length ≤ target) {table : ByteMem} {query : Nat} :
    moveWords table target source length query = UInt8.ofNat DCV ↔
      BoundaryBehind table target source length query := by
  rw [moveWords_aligned aligned apart, BoundaryBehind]
  split
  next => exact Iff.rfl
  next =>
    split
    next inWords =>
      refine ⟨fun never => ?_, fun outside => absurd inWords outside.1⟩
      exact absurd never (by decide)
    next outside => exact ⟨fun boundary => ⟨outside, boundary⟩, And.right⟩

/-- A moved branch leads as far as it was moved. -/
theorem ValidBranch.computed_moved
    {ins : Instruction} {width meant : Nat}
    (valid : ValidBranch v runtime heap record source length ins width meant)
    (verified : VerifiedHeap v runtime heap record)
    (bytes : ∀ i < length, runtime.image (target + i) = runtime.image (source + i)) :
    branchTargetIn runtime.image (target + (ins.stop - source)) width =
      meant + target - source := by
  obtain ⟨-, stands⟩ := verified.standing ins.start ins valid.inHeap valid.recorded
  have long := stands.long verified.fits.long valid.direct
  have above := valid.above
  have below := valid.below
  have sameField : runtime.image.load (target + (ins.stop - source) - width) width =
      runtime.image.load (ins.stop - width) width := by
    refine load_congr_offset fun k inField => ?_
    have same := bytes (ins.stop - width + k - source) (by omega)
    rwa [show target + (ins.stop - width + k - source) =
        target + (ins.stop - source) - width + k by omega,
      show source + (ins.stop - width + k - source) = ins.stop - width + k by omega] at same
  have computed := valid.computed
  rw [branchTargetIn] at computed ⊢
  rw [sameField]
  omega

end Verified

section Examples

/-- The heap with a jump to itself, whose bytes were stored at another place as data. -/
def jumpCopied : JitHeaps where
  runtime := { jumpOnce.runtime with
    image := jumpOnce.runtime.image.storeBytes 0x400008 [0xeb, 0xfe] }
  record := jumpOnce.record

theorem step_jumpCopied :
    CodeStep jumpOnce (.fill 0 (some 0) 0x400008 [0xeb, 0xfe] 0) jumpCopied := by
  have named : getCodeHeap (some 0) jumpOnce.runtime.modules =
      .ok (0, jumpHeap (setCode (fun _ => 0) 0 2)) := rfl
  have returned : codeHeapFill 0 (some 0) 0x400008 [0xeb, 0xfe] 0 jumpOnce.runtime =
      .ok jumpCopied.runtime := by
    rfl
  exact CodeStep.fill named returned

/-- The history of the heap with the copy. -/
theorem run_jumpCopied :
    CodeRun (fun before action => action.Careful before) jumpStart jumpCopied := by
  refine .step run_jumpOnce ?_ step_jumpCopied
  intro index heap v named _
  obtain ⟨_, rfl⟩ : 0 = index ∧ jumpHeap (setCode (fun _ => 0) 0 2) = heap := by
    simpa using Except.ok.inj named
  refine ⟨fun _ _ addr low high => ?_, fun code never => ?_, fun start patch never => ?_⟩
  · have clear : ∀ k < 2, marked (setCode (fun _ => 0) 0 2) (8 + k) = false := by
      decide +kernel
    obtain ⟨k, rfl⟩ := Nat.exists_eq_add_of_le low
    have small : k < 2 := Nat.lt_of_add_lt_add_left high
    have offset : 0x400008 + k - 0x400000 = 8 + k := by omega
    change marked (setCode (fun _ => 0) 0 2) (0x400008 + k - 0x400000) = false
    rw [offset]
    exact clear k small
  · exact nomatch never
  · exact nomatch never

/-- The only instruction of the heap. -/
theorem jumpOnce_record {addr : Nat} {ins : Instruction}
    (found : jumpOnce.record addr = some ins) :
    addr = 0x400000 ∧ ins = ⟨0x400000, 0x400002, 5⟩ := by
  by_cases inside : 0x400000 ≤ addr ∧ addr < 0x400000 + 2
  · have pieces : instructions shortJump [0xeb, 0xfe] = [⟨0, 2, 5⟩] := by
      decide +kernel
    obtain ⟨piece, listed, starts, rfl⟩ := CodeRecord.write_some found inside.1 inside.2
    rw [pieces] at listed
    obtain rfl := List.mem_singleton.mp listed
    exact ⟨starts.symm, rfl⟩
  · have nothing : jumpOnce.record addr = none :=
      CodeRecord.write_outside (by omega)
    rw [nothing] at found
    cases found

/-- Histories that leave the heap with this jump leave it verified. -/
theorem verified_jump {state : JitHeaps} (sound : state.Sound)
    (modules : state.runtime.modules = [jumpHeap (setCode (fun _ => 0) 0 2)])
    (record : state.record = jumpOnce.record) :
    VerifiedHeap shortJump state.runtime (jumpHeap (setCode (fun _ => 0) 0 2))
      state.record := by
  obtain ⟨v, hasVerifier, fits, own⟩ := sound.heaps (jumpHeap (setCode (fun _ => 0) 0 2))
    (modules ▸ List.mem_singleton_self _) rfl
  obtain rfl := Option.some.inj hasVerifier
  refine ⟨own, fits, fun addr holds isCode => ?_⟩
  have low : 0x400000 ≤ addr := holds.1
  rcases (marked_setCode (fun _ => 0) 2 (addr - 0x400000) rfl).mp isCode with old | inside
  · exact absurd old (by simp [marked])
  · refine ⟨0x400000, ⟨0x400000, 0x400002, 5⟩, ⟨by decide, by decide⟩, ?_, low, ?_⟩
    · rw [record]
      have pieces : instructions shortJump [0xeb, 0xfe] = [⟨0, 2, 5⟩] := by
        decide +kernel
      simp [jumpOnce, CodeRecord.write, pieces, Instruction.at]
    · change addr < 0x400002
      omega

end Examples

end Mcfi
