import Mathlib.Order.Nat
import Mathlib.Tactic.Common

/-!
# Contents that are read while they are copied

A copy replaces an old content by a new one, address by address in ascending
order.  Blocks of the old and of the new content start at given addresses; a
reader that arrives at such an address needs the whole old block, the whole new
block, or a trap.  This module says of each start when a reader finds one of
them at every moment of the copy.
-/

namespace PartialCopy

variable {α : Type} {old new : Nat → α} {trap : α}
  {first cut last addr : Nat}

/-- The content while a copy that began at `first` has come to `cut`. -/
def copied (old new : Nat → α) (first cut : Nat) : Nat → α :=
  fun addr => if first ≤ addr ∧ addr < cut then new addr else old addr

/-- Two contents are the same from `low` up to `high`. -/
def Agree (one other : Nat → α) (low high : Nat) : Prop :=
  ∀ addr, low ≤ addr → addr < high → one addr = other addr

/--
No address of the old block that changes comes before one of the new block that
changes: a copy that stops between the two leaves neither block.
-/
def Untorn (old new : Nat → α) (low oldStop newStop : Nat) : Prop :=
  ∀ earlier later, low ≤ earlier → earlier < later → earlier < oldStop →
    later < newStop → old earlier = new earlier ∨ old later = new later

/--
What a reader may find at an address where an old block, a new block, or both
start: the whole of one of them or the trap.
-/
def Whole (trap : α) (old new content : Nat → α) (addr : Nat)
    (oldStop newStop : Option Nat) : Prop :=
  (∃ stop, oldStop = some stop ∧ Agree content old addr stop) ∨ content addr = trap ∨
    ∃ stop, newStop = some stop ∧ Agree content new addr stop

/-- The address is whole or a trap at every moment of the copy after its first write. -/
def AlwaysWhole (trap : α) (old new : Nat → α) (first last addr : Nat)
    (oldStop newStop : Option Nat) : Prop :=
  ∀ cut, first < cut → cut ≤ last →
    Whole trap old new (copied old new first cut) addr oldStop newStop

theorem copied_written (above : first ≤ addr) (below : addr < cut) :
    copied old new first cut addr = new addr :=
  if_pos ⟨above, below⟩

theorem copied_kept (outside : addr < first ∨ cut ≤ addr) :
    copied old new first cut addr = old addr :=
  if_neg (by omega)

/-- Where a copy has changed the content, it has written the new one. -/
theorem written_of_changed (changed : copied old new first cut addr ≠ old addr) :
    first ≤ addr ∧ addr < cut ∧ old addr ≠ new addr := by
  by_cases written : first ≤ addr ∧ addr < cut
  · rw [copied_written written.1 written.2] at changed
    exact ⟨written.1, written.2, changed.symm⟩
  · exact absurd (copied_kept (by omega)) changed

/-- A content that does not agree with another differs from it somewhere. -/
theorem exists_differ {one other : Nat → α} {low high : Nat}
    (differ : ¬ Agree one other low high) :
    ∃ addr, low ≤ addr ∧ addr < high ∧ one addr ≠ other addr := by
  unfold Agree at differ
  push Not at differ
  exact differ

/-- Before the copy reaches an address everything from there on is old. -/
theorem copied_agree_old (ahead : cut ≤ addr) (stop : Nat) :
    Agree (copied old new first cut) old addr stop :=
  fun _ above _ => copied_kept (Or.inr (ahead.trans above))

/-- An address where both contents have a block, at or after the first write. -/
theorem alwaysWhole_both {oldStop newStop : Nat} (above : first ≤ addr)
    (inside : newStop ≤ last) :
    AlwaysWhole trap old new first last addr (some oldStop) (some newStop) ↔
      new addr = trap ∨ Untorn old new addr oldStop newStop := by
  constructor
  · intro readable
    refine or_iff_not_imp_left.mpr fun noTrap earlier later low order inOld inNew => ?_
    by_contra changed
    rw [not_or] at changed
    -- the copy has written the first of the two and not the second
    rcases readable later (by omega) (by omega) with
      ⟨_, ⟨⟩, isOld⟩ | isTrap | ⟨_, ⟨⟩, isNew⟩
    · have kept := isOld earlier low inOld
      rw [copied_written (above.trans low) order] at kept
      exact changed.1 kept.symm
    · rw [copied_written above (low.trans_lt order)] at isTrap
      exact noTrap isTrap
    · have written := isNew later (by omega) inNew
      rw [copied_kept (Or.inr (Nat.le_refl later))] at written
      exact changed.2 written
  · intro condition cut _ _
    rcases Nat.lt_or_ge addr cut with passed | ahead
    · rcases condition with isTrap | untorn
      · right; left
        rw [copied_written above passed, isTrap]
      · by_cases isOld : Agree (copied old new first cut) old addr oldStop
        · exact Or.inl ⟨_, rfl, isOld⟩
        · obtain ⟨earlier, low, inOld, changed⟩ := exists_differ isOld
          obtain ⟨_, before, differs⟩ := written_of_changed changed
          refine Or.inr (Or.inr ⟨_, rfl, fun later low' inNew => ?_⟩)
          rcases Nat.lt_or_ge later cut with written | kept
          · exact copied_written (above.trans low') written
          · rw [copied_kept (Or.inr kept)]
            exact (untorn earlier later low (before.trans_le kept) inOld
              inNew).resolve_left differs
    · exact Or.inl ⟨_, rfl, copied_agree_old ahead oldStop⟩

/-- An address where only the old content has a block. -/
theorem alwaysWhole_old {oldStop : Nat} (above : first ≤ addr) (below : addr < last)
    (same : ∀ later, last ≤ later → old later = new later) :
    AlwaysWhole trap old new first last addr (some oldStop) none ↔
      new addr = trap ∨ Agree old new addr oldStop := by
  constructor
  · intro readable
    rcases readable last (by omega) (Nat.le_refl last) with
      ⟨_, ⟨⟩, isOld⟩ | isTrap | ⟨_, never, _⟩
    · refine Or.inr fun later low inOld => ?_
      have kept := isOld later low inOld
      rcases Nat.lt_or_ge later last with written | outside
      · rw [copied_written (above.trans low) written] at kept
        exact kept.symm
      · exact same later outside
    · rw [copied_written above below] at isTrap
      exact Or.inl isTrap
    · cases never
  · intro condition cut _ _
    rcases Nat.lt_or_ge addr cut with passed | ahead
    · rcases condition with isTrap | agree
      · right; left
        rw [copied_written above passed, isTrap]
      · refine Or.inl ⟨_, rfl, fun later low inOld => ?_⟩
        by_contra changed
        exact (written_of_changed changed).2.2 (agree later low inOld)
    · exact Or.inl ⟨_, rfl, copied_agree_old ahead oldStop⟩

/-- An address where only the new content has a block. -/
theorem alwaysWhole_new {newStop : Nat} (above : first ≤ addr) (below : addr < last) :
    AlwaysWhole trap old new first last addr none (some newStop) ↔
      (addr = first ∨ old addr = trap ∨ Agree old new addr newStop) ∧
        (new addr = trap ∨ Agree old new (addr + 1) newStop) := by
  constructor
  · intro readable
    constructor
    · refine or_iff_not_imp_left.mpr fun later => ?_
      -- the first write leaves everything from the address on as it was
      rcases readable (first + 1) (by omega) (by omega) with
        ⟨_, never, _⟩ | isTrap | ⟨_, ⟨⟩, isNew⟩
      · cases never
      · rw [copied_kept (Or.inr (by omega))] at isTrap
        exact Or.inl isTrap
      · refine Or.inr fun query low high => ?_
        rw [← isNew query low high, copied_kept (Or.inr (by omega))]
    · -- the moment at which the first byte of the block is written
      rcases readable (addr + 1) (by omega) (by omega) with
        ⟨_, never, _⟩ | isTrap | ⟨_, ⟨⟩, isNew⟩
      · cases never
      · rw [copied_written above (Nat.lt_succ_self addr)] at isTrap
        exact Or.inl isTrap
      · refine Or.inr fun query low high => ?_
        rw [← isNew query (by omega) high, copied_kept (Or.inr low)]
  · rintro ⟨before, after⟩ cut began _
    rcases Nat.lt_or_ge addr cut with passed | ahead
    · rcases after with isTrap | agree
      · right; left
        rw [copied_written above passed, isTrap]
      · refine Or.inr (Or.inr ⟨_, rfl, fun query low high => ?_⟩)
        rcases Nat.lt_or_ge query cut with written | kept
        · exact copied_written (above.trans low) written
        · rw [copied_kept (Or.inr kept)]
          exact agree query (by omega) high
    · rcases before with isFirst | isTrap | agree
      · omega
      · right; left
        rw [copied_kept (Or.inr ahead), isTrap]
      · refine Or.inr (Or.inr ⟨_, rfl, fun query low high => ?_⟩)
        rw [copied_kept (Or.inr (ahead.trans low))]
        exact agree query low high

/-- The address before the first write, which the copy leaves for the end. -/
theorem alwaysWhole_head {oldStop newStop : Nat}
    (same : ∀ later, last ≤ later → old later = new later) (nonempty : addr < newStop)
    (inside : newStop ≤ last) :
    AlwaysWhole trap old new (addr + 1) last addr (some oldStop) (some newStop) ↔
      old addr = trap ∨ Agree old new (addr + 1) oldStop ∨
        (old addr = new addr ∧ Untorn old new (addr + 1) oldStop newStop) := by
  have head : ∀ cut, copied old new (addr + 1) cut addr = old addr :=
    fun cut => copied_kept (Or.inl (Nat.lt_succ_self addr))
  constructor
  · intro readable
    refine or_iff_not_imp_left.mpr fun noTrap => or_iff_not_imp_left.mpr fun touched => ?_
    obtain ⟨touchedAt, low, inOld, differs⟩ := exists_differ touched
    have early : touchedAt < last := by
      by_contra late
      exact differs (same touchedAt (by omega))
    -- once an address of the old block has changed, the new block has to be there
    have isNew : ∀ cut, touchedAt < cut → cut ≤ last →
        Agree (copied old new (addr + 1) cut) new addr newStop := by
      intro cut passed within
      rcases readable cut (by omega) within with
        ⟨_, ⟨⟩, isOld⟩ | isTrap | ⟨_, ⟨⟩, isNew⟩
      · have kept := isOld touchedAt (by omega) inOld
        rw [copied_written low passed] at kept
        exact absurd kept.symm differs
      · rw [head] at isTrap
        exact absurd isTrap noTrap
      · exact isNew
    constructor
    · rw [← isNew last early (Nat.le_refl last) addr (Nat.le_refl addr) nonempty, head]
    · intro earlier later low' order inOld' inNew
      by_contra changed
      rw [not_or] at changed
      rcases readable later (by omega) (by omega) with
        ⟨_, ⟨⟩, isOld⟩ | isTrap | ⟨_, ⟨⟩, isNew⟩
      · have kept := isOld earlier (by omega) inOld'
        rw [copied_written low' order] at kept
        exact changed.1 kept.symm
      · rw [head] at isTrap
        exact noTrap isTrap
      · have written := isNew later (by omega) inNew
        rw [copied_kept (Or.inr (Nat.le_refl later))] at written
        exact changed.2 written
  · intro condition cut began _
    rcases condition with isTrap | agree | ⟨sameHead, untorn⟩
    · right; left
      rw [head, isTrap]
    · refine Or.inl ⟨_, rfl, fun query low high => ?_⟩
      by_contra changed
      obtain ⟨written, _, differs⟩ := written_of_changed changed
      exact differs (agree query written high)
    · by_cases isOld : Agree (copied old new (addr + 1) cut) old addr oldStop
      · exact Or.inl ⟨_, rfl, isOld⟩
      · obtain ⟨earlier, low, inOld, changed⟩ := exists_differ isOld
        obtain ⟨written, before, differs⟩ := written_of_changed changed
        refine Or.inr (Or.inr ⟨_, rfl, fun later low' inNew => ?_⟩)
        rcases Nat.lt_or_ge later cut with passed | kept
        · rcases Nat.lt_or_ge addr later with tail | isHead
          · exact copied_written tail passed
          · have isAddr : later = addr := by omega
            rw [isAddr, head, sameHead]
        · rw [copied_kept (Or.inr kept)]
          exact (untorn earlier later written (before.trans_le kept) inOld
            inNew).resolve_left differs

/-- What a start needs to be readable throughout a copy that writes it. -/
def SafeStart (trap : α) (old new : Nat → α) (first addr : Nat) :
    Option Nat → Option Nat → Prop
  | some oldStop, some newStop => new addr = trap ∨ Untorn old new addr oldStop newStop
  | some oldStop, none => new addr = trap ∨ Agree old new addr oldStop
  | none, some newStop =>
      (addr = first ∨ old addr = trap ∨ Agree old new addr newStop) ∧
        (new addr = trap ∨ Agree old new (addr + 1) newStop)
  | none, none => True

/-- A start is readable throughout a copy that writes it exactly if it is safe. -/
theorem alwaysWhole_iff {oldStop newStop : Option Nat} (above : first ≤ addr)
    (below : addr < last) (same : ∀ later, last ≤ later → old later = new later)
    (inside : ∀ stop, newStop = some stop → stop ≤ last)
    (starts : oldStop ≠ none ∨ newStop ≠ none) :
    AlwaysWhole trap old new first last addr oldStop newStop ↔
      SafeStart trap old new first addr oldStop newStop := by
  cases oldStop with
  | some _ =>
      cases newStop with
      | some _ => exact alwaysWhole_both above (inside _ rfl)
      | none => exact alwaysWhole_old above below same
  | none =>
      cases newStop with
      | some _ => exact alwaysWhole_new above below
      | none => simp at starts

end PartialCopy
