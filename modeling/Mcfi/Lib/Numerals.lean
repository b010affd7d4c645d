import Mathlib.Tactic.Common

/-!
# Numerals

A numeral in a base of at most sixteen is written with digits and letters only.
-/

namespace Numerals

/-- Each digit is a digit or a letter. -/
theorem digitChar_isAlphanum {digit : Nat} (small : digit < 16) :
    (Nat.digitChar digit).isAlphanum = true := by
  have each : ∀ digit : Fin 16, (Nat.digitChar digit).isAlphanum = true := by
    decide
  exact each ⟨digit, small⟩

/-- A numeral consists of digits and letters. -/
theorem isAlphanum_of_mem_toDigits {base number : Nat} (atLeast : 1 < base)
    (small : base ≤ 16) {c : Char} (listed : c ∈ Nat.toDigits base number) :
    c.isAlphanum = true := by
  induction number using Nat.strongRecOn with
  | ind number inductionHypothesis =>
      rw [Nat.toDigits_eq_if atLeast] at listed
      split at listed
      next below =>
        rw [List.mem_singleton] at listed
        rw [listed]
        exact digitChar_isAlphanum (by omega)
      next above =>
        rcases List.mem_append.mp listed with early | last
        · exact inductionHypothesis _ (Nat.div_lt_self (by omega) atLeast) early
        · rw [List.mem_singleton] at last
          rw [last]
          exact digitChar_isAlphanum
            (Nat.lt_of_lt_of_le (Nat.mod_lt _ (by omega)) small)

end Numerals
