import Mathlib.Data.Nat.Nth
import Mathlib.Tactic.Ring

/-!
# Cyclic counters that skip excluded numbers

A counter runs modulo `modulus` and stops only at the numbers that satisfy
`valid`.  Its successive stops are the values of `Nat.nth` for the periodic
extension of `valid`, read modulo `modulus`.  Hence the stops repeat with period
exactly the number of valid residues, and not earlier.

The last section counts the valid residues when validity is decided digit by
digit.
-/

namespace SkipCounter

variable {modulus : Nat} {valid : Nat → Prop}

/-- The periodic extension of `valid` to all numbers. -/
def Periodic (modulus : Nat) (valid : Nat → Prop) (number : Nat) : Prop :=
  valid (number % modulus)

instance [DecidablePred valid] : DecidablePred (Periodic modulus valid) :=
  fun number => inferInstanceAs (Decidable (valid (number % modulus)))

/--
The counter, started at `number`, skips `skipped` excluded numbers and stops at
the residue `stop`.
-/
structure Stops
    (modulus : Nat) (valid : Nat → Prop)
    (number skipped stop : Nat) : Prop where
  isStop : stop = (number + skipped) % modulus
  stopValid : Periodic modulus valid (number + skipped)
  skippedInvalid :
    ∀ earlier, earlier < skipped → ¬ Periodic modulus valid (number + earlier)

/-- The number of valid residues. -/
def period (modulus : Nat) (valid : Nat → Prop) [DecidablePred valid] : Nat :=
  Nat.count valid modulus

/-- The residue of the stop with a given index, counted from zero. -/
noncomputable def stopAt
    (modulus : Nat) (valid : Nat → Prop) (index : Nat) : Nat :=
  Nat.nth (Periodic modulus valid) index % modulus

theorem periodic_add (number : Nat) :
    Periodic modulus valid (modulus + number) ↔
      Periodic modulus valid number := by
  simp [Periodic]

/-- One valid residue makes the periodic extension valid infinitely often. -/
theorem periodic_infinite
    (positive : 0 < modulus)
    (residue : Nat) (residueValid : Periodic modulus valid residue) :
    (Set.ofPred (Periodic modulus valid)).Infinite := by
  rw [Set.infinite_iff_exists_gt]
  intro bound
  refine ⟨modulus * (bound + 1) + residue, ?_, ?_⟩
  · rw [Set.mem_ofPred_eq]
    simpa [Periodic] using residueValid
  · calc
      bound < 1 * (bound + 1) := by omega
      _ ≤ modulus * (bound + 1) := Nat.mul_le_mul_right _ positive
      _ ≤ modulus * (bound + 1) + residue := Nat.le_add_right _ _

section Counting

variable [DecidablePred valid]

/-- Below the modulus the periodic extension counts like `valid` itself. -/
theorem count_periodic_modulus :
    Nat.count (Periodic modulus valid) modulus = period modulus valid := by
  unfold period
  rw [Nat.count_eq_card_filter_range, Nat.count_eq_card_filter_range]
  congr 1
  apply Finset.filter_congr
  intro number below
  rw [Finset.mem_range] at below
  simp [Periodic, Nat.mod_eq_of_lt below]

/-- Moving by one modulus adds one full period to the count. -/
theorem count_add_modulus (number : Nat) :
    Nat.count (Periodic modulus valid) (modulus + number) =
      period modulus valid + Nat.count (Periodic modulus valid) number := by
  have shift :
      (fun k => Periodic modulus valid (modulus + k)) =
        Periodic modulus valid := by
    funext k
    exact propext (periodic_add k)
  rw [Nat.count_add, count_periodic_modulus]
  simp [shift]

/-- The stop one period later lies one modulus later. -/
theorem nth_add_period
    (infinite : (Set.ofPred (Periodic modulus valid)).Infinite) (index : Nat) :
    Nat.nth (Periodic modulus valid) (period modulus valid + index) =
      modulus + Nat.nth (Periodic modulus valid) index := by
  have stopValid : Periodic modulus valid
      (modulus + Nat.nth (Periodic modulus valid) index) :=
    (periodic_add _).mpr (Nat.nth_mem_of_infinite infinite index)
  have counted :
      Nat.count (Periodic modulus valid)
          (modulus + Nat.nth (Periodic modulus valid) index) =
        period modulus valid + index := by
    rw [count_add_modulus, Nat.count_nth_of_infinite infinite]
  rw [← counted, Nat.nth_count stopValid]

/-- A whole number of periods is a whole number of moduli. -/
theorem nth_add_periods
    (infinite : (Set.ofPred (Periodic modulus valid)).Infinite)
    (periods index : Nat) :
    Nat.nth (Periodic modulus valid) (periods * period modulus valid + index) =
      periods * modulus + Nat.nth (Periodic modulus valid) index := by
  induction periods with
  | zero =>
      simp
  | succ periods inductionHypothesis =>
      have regroup :
          (periods + 1) * period modulus valid + index =
            period modulus valid +
              (periods * period modulus valid + index) := by
        ring
      rw [regroup, nth_add_period infinite, inductionHypothesis]
      ring

/-- The first period of stops lies below the modulus. -/
theorem nth_lt_modulus
    {index : Nat} (inPeriod : index < period modulus valid) :
    Nat.nth (Periodic modulus valid) index < modulus := by
  have counted : Nat.count (Periodic modulus valid) modulus =
      period modulus valid := count_periodic_modulus
  rw [← counted] at inPeriod
  exact Nat.nth_lt_of_lt_count inPeriod

/-- The residue of a stop depends on its index modulo the period only. -/
theorem stopAt_eq_nth_mod
    (infinite : (Set.ofPred (Periodic modulus valid)).Infinite)
    (positive : 0 < period modulus valid) (index : Nat) :
    stopAt modulus valid index =
      Nat.nth (Periodic modulus valid) (index % period modulus valid) := by
  have split :
      index =
        index / period modulus valid * period modulus valid +
          index % period modulus valid :=
    (Nat.div_add_mod' index (period modulus valid)).symm
  have below :=
    nth_lt_modulus (Nat.mod_lt index positive)
  unfold stopAt
  conv_lhs => rw [split, nth_add_periods infinite]
  rw [Nat.add_comm, Nat.add_mul_mod_self_right, Nat.mod_eq_of_lt below]

/-- Two stops agree exactly when their indices agree modulo the period. -/
theorem stopAt_eq_iff
    (infinite : (Set.ofPred (Periodic modulus valid)).Infinite)
    (positive : 0 < period modulus valid) (first second : Nat) :
    stopAt modulus valid first = stopAt modulus valid second ↔
      first % period modulus valid = second % period modulus valid := by
  rw [stopAt_eq_nth_mod infinite positive, stopAt_eq_nth_mod infinite positive]
  constructor
  · exact fun same => Nat.nth_injective infinite same
  · intro same
    rw [same]

/-- Where the counter stops, and how many stops lie below that place. -/
theorem Stops.eq_stopAt
    {number skipped stop start : Nat}
    (stops : Stops modulus valid number skipped stop)
    (sameResidue : number % modulus = start % modulus) :
    stop = stopAt modulus valid (Nat.count (Periodic modulus valid) start) ∧
      Nat.count (Periodic modulus valid) (start + skipped + 1) =
        Nat.count (Periodic modulus valid) start + 1 := by
  have shift : ∀ offset,
      Periodic modulus valid (number + offset) ↔
        Periodic modulus valid (start + offset) := by
    intro offset
    unfold Periodic
    rw [Nat.add_mod, sameResidue, ← Nat.add_mod]
  have stopValid : Periodic modulus valid (start + skipped) :=
    (shift skipped).mp stops.stopValid
  have noneBetween :
      Nat.count (Periodic modulus valid) (start + skipped) =
        Nat.count (Periodic modulus valid) start := by
    rw [Nat.count_add, Nat.add_eq_left, Nat.count_iff_forall_not]
    intro earlier below valid
    exact stops.skippedInvalid earlier below ((shift earlier).mpr valid)
  constructor
  · unfold stopAt
    rw [← noneBetween, Nat.nth_count stopValid, stops.isStop,
      Nat.add_mod, sameResidue, ← Nat.add_mod]
  · rw [Nat.count_succ, if_pos stopValid, noneBetween]

end Counting

section Digits

/-- A number is valid when its last digit and the number before it are. -/
def LastDigit
    (base : Nat) (digit higher : Nat → Prop) (number : Nat) : Prop :=
  digit (number % base) ∧ higher (number / base)

instance (base : Nat) (digit higher : Nat → Prop)
    [DecidablePred digit] [DecidablePred higher] :
    DecidablePred (LastDigit base digit higher) :=
  fun number =>
    inferInstanceAs (Decidable (digit (number % base) ∧ higher (number / base)))

variable {digit higher : Nat → Prop}
variable [DecidablePred digit] [DecidablePred higher]

/-- Within one block of `base` numbers only the last digit changes. -/
theorem count_block (base block : Nat) :
    Nat.count (fun k => LastDigit base digit higher (base * block + k)) base =
      if higher block then Nat.count digit base else 0 := by
  rw [Nat.count_eq_card_filter_range]
  have digits :
      (Finset.range base).filter
          (fun k => LastDigit base digit higher (base * block + k)) =
        (Finset.range base).filter (fun k => digit k ∧ higher block) := by
    apply Finset.filter_congr
    intro k below
    rw [Finset.mem_range] at below
    have positive : 0 < base := by omega
    simp [LastDigit, Nat.mod_eq_of_lt below,
      Nat.mul_add_div positive, Nat.div_eq_of_lt below]
  rw [digits]
  by_cases isHigher : higher block
  · simp [isHigher, Nat.count_eq_card_filter_range]
  · simp [isHigher]

/-- The count of valid numbers is the product of the counts of the parts. -/
theorem count_lastDigit (base blocks : Nat) :
    Nat.count (LastDigit base digit higher) (base * blocks) =
      Nat.count digit base * Nat.count higher blocks := by
  induction blocks with
  | zero =>
      simp
  | succ blocks inductionHypothesis =>
      rw [Nat.mul_succ, Nat.count_add, inductionHypothesis, count_block,
        Nat.count_succ, Nat.mul_add]
      split <;> simp

end Digits

end SkipCounter
