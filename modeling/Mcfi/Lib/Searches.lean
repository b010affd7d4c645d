import Mathlib.Data.List.Infix
import Mathlib.Tactic.Common

/-!
# Searches in texts

What is behind the last delimiter of a text, and where words can occur in joined texts:
a word without separators does not occur across one.
-/

namespace Searches

variable {α : Type}

section BehindLast

variable [DecidableEq α] (delimiter : α)

/-- What is behind the last delimiter. -/
def behindLast : List α → Option (List α)
  | [] => none
  | head :: rest =>
      match behindLast rest with
      | some behind => some behind
      | none => if head = delimiter then some rest else none

variable {delimiter} {text front behind : List α}

/-- A last delimiter is found exactly in a text with delimiters. -/
theorem behindLast_eq_none : behindLast delimiter text = none ↔ delimiter ∉ text := by
  induction text with
  | nil => simp [behindLast]
  | cons head rest inductionHypothesis =>
      rw [behindLast, List.mem_cons, not_or, ← inductionHypothesis]
      cases behindLast delimiter rest with
      | some later => simp
      | none =>
          by_cases same : head = delimiter
          · simp [same]
          · simp [same, Ne.symm same]

/-- The last delimiter of joined texts is that of the second, when it has one. -/
theorem behindLast_append_of_some {later : List α}
    (found : behindLast delimiter behind = some later) :
    behindLast delimiter (front ++ behind) = some later := by
  induction front with
  | nil => exact found
  | cons head rest inductionHypothesis =>
      rw [List.cons_append, behindLast, inductionHypothesis]

/-- Else it is that of the first. -/
theorem behindLast_append_of_not_mem (clean : delimiter ∉ behind) :
    behindLast delimiter (front ++ behind) =
      (behindLast delimiter front).map (· ++ behind) := by
  induction front with
  | nil => simpa [behindLast] using behindLast_eq_none.mpr clean
  | cons head rest inductionHypothesis =>
      rw [List.cons_append, behindLast, behindLast, inductionHypothesis]
      cases behindLast delimiter rest with
      | some later => rfl
      | none =>
          by_cases same : head = delimiter
          · simp [same]
          · simp [same]

/-- A text that ends with the delimiter has nothing behind it. -/
theorem behindLast_concat : behindLast delimiter (front ++ [delimiter]) = some [] := by
  apply behindLast_append_of_some
  simp [behindLast]

end BehindLast

section Occurrences

variable {word front behind : List α} {separator : α}

/-- A word without a separator occurs on one side of it. -/
theorem infix_append_cons (clean : separator ∉ word) :
    word <:+: front ++ separator :: behind ↔ word <:+: front ∨ word <:+: behind := by
  constructor
  · rintro ⟨before, after, split⟩
    rw [List.append_assoc, List.append_eq_append_iff] at split
    rcases split with ⟨between, rfl, rest⟩ | ⟨between, rfl, rest⟩
    · -- the word begins in the front text
      rw [List.append_eq_append_iff] at rest
      rcases rest with ⟨left, rfl, _⟩ | ⟨right, rfl, tail⟩
      · exact Or.inl ⟨before, left, by simp⟩
      · cases right with
        | nil => exact Or.inl ⟨before, [], by simp⟩
        | cons head right =>
            cases tail
            exact absurd (by simp) clean
    · -- it begins at the separator, or behind it
      cases between with
      | nil =>
          cases word with
          | nil => exact Or.inl (List.nil_infix)
          | cons head word =>
              cases rest
              exact absurd List.mem_cons_self clean
      | cons head between =>
          cases rest
          exact Or.inr ⟨between, after, by simp⟩
  · rintro (⟨before, after, rfl⟩ | ⟨before, after, rfl⟩)
    · exact ⟨before, after ++ separator :: behind, by simp⟩
    · exact ⟨front ++ separator :: before, after, by simp⟩

/-- A word does not occur in a text that lacks one of its items. -/
theorem not_infix_of_not_mem {item : α} {text : List α} (inWord : item ∈ word)
    (lacks : item ∉ text) : ¬ word <:+: text :=
  fun occurs => lacks (occurs.subset inWord)

end Occurrences

end Searches
