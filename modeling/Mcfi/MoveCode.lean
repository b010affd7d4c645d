import Mcfi.DeletedCode

namespace Mcfi

open ByteMem

/-!
# Moving code

`move_code` marks the target of a move as code and its source as data, and moves
the table entries of the source by whole words.  It does not look at the bytes that
lie at the target, which the program has stored there as data before.
-/

section Moving

/-- `move_code`, one round of the loop: words of zero are not copied. -/
def moveWord (target source : Nat) (table : ByteMem) (i : Nat) : ByteMem :=
  let tmp := table.load64 (source + 8 * i)
  if tmp ≠ 0 then
    (table.store64 (source + 8 * i) 0).store64 (target + 8 * i) tmp
  else
    table

/-- `move_code`, the loop over the words of the table. -/
def moveWords (table : ByteMem) (target source length : Nat) : ByteMem :=
  (List.range ((length + 7) / 8)).foldl
    (moveWord (target / 8 * 8) (source / 8 * 8)) table

/--
`move_code`.  The check of what follows the source passes an address where
`which_area` needs an offset.
-/
def moveCode (handle : Option Nat) (target source length : Nat) (runtime : Runtime) :
    Rt Runtime := do
  let (index, m) ← getCodeHeap handle runtime.modules
  if fourGB ≤ length ∨ target < m.baseAddr ∨
      m.baseAddr + m.sz < target + length ∨ target % 8 ≠ 0 then
    .error (.quit "[rock_move_code] illegal target\n")
  else if source < m.baseAddr ∨ m.baseAddr + m.sz < source + length then
    .error (.quit "[rock_move_code] illegal source\n")
  else if whichArea m.codeDataBitmap (source - m.baseAddr) length ≠ .code then
    .error (.quit "[rock_move_code not code]\n")
  else if (m.baseAddr < source ∧
        whichArea m.codeDataBitmap (source - m.baseAddr - 1) 1 = .code) ∨
      (source + length < m.baseAddr + m.sz ∧
        whichArea m.codeDataBitmap (source + length) 1 = .code) then
    .error (.quit "[rock_move_code not moving all code]\n")
  else if whichArea m.codeDataBitmap (target - m.baseAddr) length ≠ .data then
    .error (.quit "[rock_move_code not data]\n")
  else
    return { runtime with
      table := moveWords runtime.table target source length
      modules := runtime.modules.set index { m with
        codeDataBitmap :=
          setCode (setData m.codeDataBitmap (source - m.baseAddr) length)
            (target - m.baseAddr) length } }

/-- What a returned move has checked and done. -/
theorem moveCode_ok
    {handle : Option Nat} {target source length : Nat} {runtime result : Runtime}
    (returned : moveCode handle target source length runtime = .ok result) :
    ∃ index heap, getCodeHeap handle runtime.modules = .ok (index, heap) ∧
      heap.baseAddr ≤ target ∧ target + length ≤ heap.baseAddr + heap.sz ∧
      target % 8 = 0 ∧ heap.baseAddr ≤ source ∧
      source + length ≤ heap.baseAddr + heap.sz ∧
      whichArea heap.codeDataBitmap (source - heap.baseAddr) length = .code ∧
      whichArea heap.codeDataBitmap (target - heap.baseAddr) length = .data ∧
      result = { runtime with
        table := moveWords runtime.table target source length
        modules := runtime.modules.set index { heap with
          codeDataBitmap :=
            setCode (setData heap.codeDataBitmap (source - heap.baseAddr) length)
              (target - heap.baseAddr) length } } := by
  unfold moveCode at returned
  rw [bind_eq_ok] at returned
  obtain ⟨⟨index, heap⟩, named, returned⟩ := returned
  simp only at returned
  split at returned
  next => cases returned
  next targetFits =>
    split at returned
    next => cases returned
    next sourceFits =>
      split at returned
      next => cases returned
      next isCode =>
        split at returned
        next => cases returned
        next =>
          split at returned
          next => cases returned
          next isData =>
            cases returned
            exact ⟨index, heap, named, by omega, by omega, by omega, by omega, by omega,
              not_not.mp isCode, not_not.mp isData, rfl⟩

end Moving

section Words

variable {table : ByteMem} {target source count query : Nat}

/-- Some byte of the word is not zero, so it is copied. -/
def Copies (table : ByteMem) (word : Nat) : Prop :=
  table.load64 word ≠ 0

instance (table : ByteMem) (word : Nat) : Decidable (Copies table word) :=
  inferInstanceAs (Decidable (_ ≠ _))

/-- What a number of rounds leaves at an address of the table. -/
def movedByte (table : ByteMem) (target source count query : Nat) : UInt8 :=
  if InSpan target (8 * count) query ∧ Copies table (source + (query - target) / 8 * 8) then
    table (source + (query - target))
  else if InSpan source (8 * count) query then
    0
  else
    table query

/-- A byte of a word of zero. -/
theorem byte_of_zero_word {word k : Nat} (zero : table.load64 word = 0) (inside : k < 8) :
    table (word + k) = 0 := by
  have byte := byte_eq_load table word 8 inside
  rw [show table.load word 8 = 0 from zero, Nat.zero_div, Nat.zero_mod] at byte
  exact UInt8.toNat_inj.mp byte

/-- The rounds so far have not written to the word that is read next. -/
theorem movedByte_later (apart : target ≤ source ∨ source + 8 * (count + 1) ≤ target)
    (above : source + 8 * count ≤ query) (below : query < source + 8 * count + 8) :
    movedByte table target source count query = table query := by
  have notTarget : ¬ InSpan target (8 * count) query := by
    rintro ⟨low, high⟩
    omega
  have notSource : ¬ InSpan source (8 * count) query := by
    rintro ⟨low, high⟩
    omega
  rw [movedByte, if_neg fun both => notTarget both.1, if_neg notSource]

/-- Outside the two words of a round nothing depends on it. -/
private theorem movedByte_outside
    (notTarget : ¬ InSpan (target + 8 * count) 8 query)
    (notSource : ¬ InSpan (source + 8 * count) 8 query) :
    movedByte table target source (count + 1) query =
      movedByte table target source count query := by
  have sameTarget : InSpan target (8 * (count + 1)) query ↔
      InSpan target (8 * count) query := by
    simp only [InSpan] at notTarget ⊢
    omega
  have sameSource : InSpan source (8 * (count + 1)) query ↔
      InSpan source (8 * count) query := by
    simp only [InSpan] at notSource ⊢
    omega
  simp only [movedByte, sameTarget, sameSource]

/-- One round moves one word more. -/
theorem moveWord_movedByte (apart : target ≤ source ∨ source + 8 * (count + 1) ≤ target) :
    moveWord target source (movedByte table target source count) count =
      movedByte table target source (count + 1) := by
  have sameWord : ByteMem.load64 (movedByte table target source count)
      (source + 8 * count) = table.load64 (source + 8 * count) :=
    load_congr fun k below => movedByte_later apart (by omega) (by omega)
  funext query
  -- the word that is read is none of those that were written before
  have unwritten : InSpan (source + 8 * count) 8 query →
      ¬ InSpan (target + 8 * count) 8 query →
        ¬ InSpan target (8 * (count + 1)) query := by
    simp only [InSpan]
    omega
  have inTarget : InSpan (target + 8 * count) 8 query →
      InSpan target (8 * (count + 1)) query ∧ (query - target) / 8 * 8 = 8 * count := by
    simp only [InSpan]
    omega
  have inSource : InSpan (source + 8 * count) 8 query →
      InSpan source (8 * (count + 1)) query := by
    simp only [InSpan]
    omega
  unfold moveWord
  rw [sameWord]
  by_cases copies : table.load64 (source + 8 * count) ≠ 0
  · simp only [if_pos copies]
    by_cases here : InSpan (target + 8 * count) 8 query
    · obtain ⟨inside, word⟩ := inTarget here
      obtain ⟨k, rfl⟩ := Nat.exists_eq_add_of_le here.1
      have small : k < 8 := Nat.lt_of_add_lt_add_left here.2
      rw [movedByte, if_pos ⟨inside, by rw [word]; exact copies⟩]
      refine UInt8.toNat_inj.mp ?_
      rw [store64_byte _ _ _ small, Nat.add_assoc, Nat.add_sub_cancel_left, ← Nat.add_assoc]
      exact (byte_eq_load table _ 8 small).symm
    · rw [store64_other _ (by simp only [InSpan] at here; omega)]
      by_cases gone : InSpan (source + 8 * count) 8 query
      · rw [movedByte, if_neg fun both => unwritten gone here both.1, if_pos (inSource gone)]
        obtain ⟨k, rfl⟩ := Nat.exists_eq_add_of_le gone.1
        refine UInt8.toNat_inj.mp ?_
        rw [store64_byte _ _ _ (Nat.lt_of_add_lt_add_left gone.2), Nat.zero_div]
        rfl
      · rw [store64_other _ (by simp only [InSpan] at gone; omega),
          movedByte_outside here gone]
  · have zero := not_not.mp copies
    simp only [if_neg copies]
    by_cases gone : InSpan (source + 8 * count) 8 query
    · obtain ⟨k, rfl⟩ := Nat.exists_eq_add_of_le gone.1
      have small : k < 8 := Nat.lt_of_add_lt_add_left gone.2
      have isZero := byte_of_zero_word zero small
      rw [movedByte_later apart (by omega) (by omega), isZero, movedByte]
      split
      next both =>
        by_cases here : InSpan (target + 8 * count) 8 (source + 8 * count + k)
        · rw [(inTarget here).2] at both
          exact absurd zero both.2
        · exact absurd both.1 (unwritten gone here)
      next => rw [if_pos (inSource gone)]
    · by_cases here : InSpan (target + 8 * count) 8 query
      · have early : ¬ InSpan target (8 * count) query := by
          simp only [InSpan] at here ⊢
          omega
        have notCopied : ¬ (InSpan target (8 * (count + 1)) query ∧
            Copies table (source + (query - target) / 8 * 8)) := by
          rw [(inTarget here).2]
          exact fun both => both.2 zero
        have sameSource : InSpan source (8 * (count + 1)) query ↔
            InSpan source (8 * count) query := by
          simp only [InSpan] at gone ⊢
          omega
        rw [movedByte, movedByte, if_neg fun both => early both.1, if_neg notCopied]
        simp only [sameSource]
      · exact (movedByte_outside here gone).symm

/-- All rounds, when the words of the target do not follow those of the source closely. -/
theorem moveWords_eq {length : Nat}
    (apart : target / 8 * 8 ≤ source / 8 * 8 ∨
      source / 8 * 8 + 8 * ((length + 7) / 8) ≤ target / 8 * 8) :
    moveWords table target source length =
      movedByte table (target / 8 * 8) (source / 8 * 8) ((length + 7) / 8) := by
  unfold moveWords
  generalize (length + 7) / 8 = words at apart ⊢
  suffices rounds : ∀ count ≤ words, (List.range count).foldl
      (moveWord (target / 8 * 8) (source / 8 * 8)) table =
        movedByte table (target / 8 * 8) (source / 8 * 8) count from
    rounds words (Nat.le_refl _)
  intro count
  induction count with
  | zero =>
      intro _
      funext query
      rw [movedByte, if_neg fun both => absurd both.1.2 (Nat.not_lt.mpr both.1.1),
        if_neg fun inside => absurd inside.2 (Nat.not_lt.mpr inside.1)]
      rfl
  | succ count inductionHypothesis =>
      intro below
      rw [List.range_succ, List.foldl_append, inductionHypothesis (by omega),
        List.foldl_cons, List.foldl_nil]
      exact moveWord_movedByte (by omega)

end Words

section Table

/-- The bytes of the words that are moved for a length. -/
def wordBytes (length : Nat) : Nat :=
  8 * ((length + 7) / 8)

/-- The table of the source is moved to the target, and nothing else changes. -/
structure MovesTable (before after : ByteMem) (target source length : Nat) : Prop where
  moved : ∀ i < length, after (target + i) = before (source + i)
  cleared : ∀ i < length, after (source + i) = 0
  kept : ∀ query, ¬ InSpan target length query → ¬ InSpan source length query →
    after query = before query

/--
The table before: the words that are copied hold the bytes of the source at their
places, a word that is skipped finds its bytes at the target, and outside the two
ranges the words have nothing to copy or to clear.
-/
structure FitsMove (table : ByteMem) (target source length : Nat) : Prop where
  copied : ∀ i < length, Copies table (source / 8 * 8 + i / 8 * 8) →
    table (source / 8 * 8 + i) = table (source + i)
  skipped : ∀ i < length, ¬ Copies table (source / 8 * 8 + i / 8 * 8) →
    table (source + i) =
      if InSpan (source / 8 * 8) (wordBytes length) (target + i) then 0
      else table (target + i)
  behindTarget : ∀ i, length ≤ i → i < wordBytes length →
    Copies table (source / 8 * 8 + i / 8 * 8) →
      table (source / 8 * 8 + i) =
        if InSpan source length (target + i) then 0 else table (target + i)
  behindSource : ∀ query, InSpan source length query →
    ¬ InSpan (source / 8 * 8) (wordBytes length) query → table query = 0
  besideSource : ∀ query, InSpan (source / 8 * 8) (wordBytes length) query →
    ¬ InSpan source length query → ¬ InSpan target length query →
      ¬ (InSpan target (wordBytes length) query ∧
        Copies table (source / 8 * 8 + (query - target) / 8 * 8)) →
          table query = 0

variable {table : ByteMem} {target source length : Nat}

/-- The table after a move to an aligned target that does not overlap the source. -/
theorem moveWords_aligned (aligned : target % 8 = 0)
    (apart : target ≤ source ∨ source + length ≤ target) (query : Nat) :
    moveWords table target source length query =
      if InSpan target (wordBytes length) query ∧
          Copies table (source / 8 * 8 + (query - target) / 8 * 8) then
        table (source / 8 * 8 + (query - target))
      else if InSpan (source / 8 * 8) (wordBytes length) query then
        0
      else
        table query := by
  have same : target / 8 * 8 = target := by omega
  rw [moveWords_eq (by omega), same]
  rfl

/--
A move transfers the table, exactly when the words that are moved agree with the
ranges.
-/
theorem movesTable_iff_fits (aligned : target % 8 = 0)
    (apart : target + length ≤ source ∨ source + length ≤ target) :
    MovesTable table (moveWords table target source length) target source length ↔
      FitsMove table target source length := by
  have after := fun query : Nat =>
    (moveWords_aligned aligned (apart.imp_left (Nat.le_of_add_right_le ·)) query :
      moveWords table target source length query = _)
  have whole : length ≤ wordBytes length := by
    unfold wordBytes
    omega
  have atTarget (i : Nat) (inside : i < wordBytes length) :
      moveWords table target source length (target + i) =
        if Copies table (source / 8 * 8 + i / 8 * 8) then table (source / 8 * 8 + i)
        else if InSpan (source / 8 * 8) (wordBytes length) (target + i) then 0
        else table (target + i) := by
    have inRange : InSpan target (wordBytes length) (target + i) := ⟨by omega, by omega⟩
    simp only [after, inRange, Nat.add_sub_cancel_left, true_and]
  constructor
  · rintro ⟨moved, cleared, kept⟩
    refine ⟨fun i below copies => ?_, fun i below skips => ?_,
      fun i above below copies => ?_, fun query inSource behind => ?_,
      fun query inWords notSource notTarget notCopied => ?_⟩
    · rw [← moved i below, atTarget i (below.trans_le whole), if_pos copies]
    · rw [← moved i below, atTarget i (below.trans_le whole), if_neg skips]
    · have value := atTarget i below
      rw [if_pos copies] at value
      rw [← value]
      split
      next inSource =>
        have isCleared := cleared (target + i - source) (by
          have low := inSource.1
          have high := inSource.2
          omega)
        rwa [Nat.add_sub_cancel' inSource.1] at isCleared
      next notSource =>
        exact kept _ (fun inTarget => by have high := inTarget.2; omega) notSource
    · have isCleared := cleared (query - source) (by
        have low := inSource.1
        have high := inSource.2
        omega)
      rw [Nat.add_sub_cancel' inSource.1, after, if_neg, if_neg behind] at isCleared
      · exact isCleared
      · rintro ⟨inTarget, -⟩
        simp only [InSpan, wordBytes] at inSource behind inTarget
        omega
    · have isKept := kept query notTarget notSource
      rw [after, if_neg notCopied, if_pos inWords] at isKept
      exact isKept.symm
  · rintro ⟨copied, skipped, behindTarget, behindSource, besideSource⟩
    -- an address of the words of the target that is copied, but not in the range
    have spilled (query : Nat) (notTarget : ¬ InSpan target length query)
        (isCopied : InSpan target (wordBytes length) query ∧
          Copies table (source / 8 * 8 + (query - target) / 8 * 8)) :
        moveWords table target source length query =
          if InSpan source length query then 0 else table query := by
      obtain ⟨i, rfl⟩ := Nat.exists_eq_add_of_le isCopied.1.1
      have inside : i < wordBytes length := Nat.lt_of_add_lt_add_left isCopied.1.2
      have behind : length ≤ i := by
        by_contra within
        exact notTarget ⟨by omega, by omega⟩
      rw [Nat.add_sub_cancel_left] at isCopied
      rw [atTarget i inside, if_pos isCopied.2]
      exact behindTarget i behind inside isCopied.2
    refine ⟨fun i below => ?_, fun i below => ?_, fun query notTarget notSource => ?_⟩
    · rw [atTarget i (below.trans_le whole)]
      split
      next copies => exact copied i below copies
      next skips => exact (skipped i below skips).symm
    · have inSource : InSpan source length (source + i) := ⟨by omega, by omega⟩
      have notTarget : ¬ InSpan target length (source + i) := by
        simp only [InSpan]
        omega
      by_cases isCopied : InSpan target (wordBytes length) (source + i) ∧
          Copies table (source / 8 * 8 + (source + i - target) / 8 * 8)
      · rw [spilled _ notTarget isCopied, if_pos inSource]
      · rw [after, if_neg isCopied]
        split
        next => rfl
        next behind => exact behindSource _ inSource behind
    · by_cases isCopied : InSpan target (wordBytes length) query ∧
          Copies table (source / 8 * 8 + (query - target) / 8 * 8)
      · rw [spilled _ notTarget isCopied, if_neg notSource]
      · rw [after, if_neg isCopied]
        split
        next inWords =>
          exact (besideSource _ inWords notSource notTarget isCopied).symm
        next => rfl

end Table

section TableExamples

/-- Two jumps to themselves that were installed as one piece of code. -/
def jumpPair : JitHeaps where
  runtime := (jumpStart.runtime.writeCode 0x400000 [0xeb, 0xfe, 0xeb, 0xfe]
    [UInt8.ofNat DCV, 0, UInt8.ofNat DCV, 0]).setModule 0 (jumpHeap (setCode (fun _ => 0) 0 4))
  record := jumpStart.record.write 0x400000 4
    (instructions shortJump [0xeb, 0xfe, 0xeb, 0xfe])

example : codeHeapFill 0 (some 0) 0x400000 [0xeb, 0xfe, 0xeb, 0xfe] 9 jumpStart.runtime =
    .ok jumpPair.runtime := by
  rfl

end TableExamples

end Mcfi
