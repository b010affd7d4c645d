import Mathlib.Data.Nat.Bitwise
import Mcfi.Lib.SkipCounter

namespace Mcfi

/-!
# The half-id encoder

`_convert_to_mcfi_half_id_format` turns a running number into four 7-bit fields,
each shifted left by one bit into a byte of its own.  Numbers with a field that
would spell one of the three marker bytes are skipped.  The number counts modulo
`2^28 - 1`.

The encoder is a cyclic counter that skips excluded numbers, so its outputs
repeat after exactly `125^4` calls.
-/

/-- Marker stored at a landing pad's Tary entry. -/
def LPV : Nat := 0xFE

/-- Marker stored in the Tary entries of a native module. -/
def NPV : Nat := 0xFC

/-- Marker stored at the instruction boundaries of generated code. -/
def DCV : Nat := 0xF4

/-- The three bytes that no field of an id may spell. -/
def IsMarker (byte : Nat) : Prop :=
  byte = DCV ∨ byte = LPV ∨ byte = NPV

instance (byte : Nat) : Decidable (IsMarker byte) :=
  inferInstanceAs (Decidable (_ ∨ _))

/-- The modulus of the running number. -/
def halfIdModulus : Nat := 268435455

/--
One pass through the body of the encoder's `while (TRUE)` loop: either the loop
goes round again with the incremented number, or it breaks with the half id and
the incremented number.
-/
def halfIdIter (number : Nat) : Nat ⊕ (Nat × Nat) :=
  let number := number % halfIdModulus
  let a := (number &&& 127) <<< 1
  let b := ((number >>> 7) &&& 127) <<< 1
  let c := ((number >>> 14) &&& 127) <<< 1
  let d := ((number >>> 21) &&& 127) <<< 1
  if ¬ IsMarker a ∧ ¬ IsMarker b ∧ ¬ IsMarker c ∧ ¬ IsMarker d then
    .inr ((d <<< 24) ||| (c <<< 16) ||| (b <<< 8) ||| a, number + 1)
  else
    .inl (number + 1)

/-- The loop, started at `number`, breaks with `result` after `passes` passes. -/
inductive HalfIdRun : Nat → Nat → Nat × Nat → Prop where
  | stop
      {number : Nat} {result : Nat × Nat}
      (breaks : halfIdIter number = .inr result) :
      HalfIdRun number 1 result
  | again
      {number next passes : Nat} {result : Nat × Nat}
      (continues : halfIdIter number = .inl next)
      (rest : HalfIdRun next passes result) :
      HalfIdRun number (passes + 1) result

/-- A 7-bit field whose byte spells no marker. -/
def FieldOk (field : Nat) : Prop :=
  field ≠ 122 ∧ field ≠ 127 ∧ field ≠ 126

instance : DecidablePred FieldOk :=
  fun field => inferInstanceAs (Decidable (field ≠ 122 ∧ _))

/-- All four 7-bit fields of a number spell no marker. -/
def FieldsOk : Nat → Prop :=
  SkipCounter.LastDigit 128 FieldOk
    (SkipCounter.LastDigit 128 FieldOk
      (SkipCounter.LastDigit 128 FieldOk FieldOk))

instance : DecidablePred FieldsOk :=
  inferInstanceAs (DecidablePred (SkipCounter.LastDigit 128 _ _))

/-- The half id of a number below the modulus, in arithmetic form. -/
def halfIdOf (number : Nat) : Nat :=
  number % 128 * 2 +
    number / 128 % 128 * 2 * 2 ^ 8 +
    number / 16384 % 128 * 2 * 2 ^ 16 +
    number / 2097152 % 128 * 2 * 2 ^ 24

/-- Four bytes side by side are joined by `|||` as by addition. -/
private theorem joinBytes
    {a b c d : Nat} (aByte : a < 256) (bByte : b < 256) (cByte : c < 256) :
    (d <<< 24) ||| (c <<< 16) ||| (b <<< 8) ||| a =
      a + b * 2 ^ 8 + c * 2 ^ 16 + d * 2 ^ 24 := by
  have low : (b <<< 8) ||| a = 2 ^ 8 * b + a := by
    rw [Nat.shiftLeft_eq, Nat.mul_comm,
      Nat.two_pow_add_eq_or_of_lt (by omega) b]
  have middle : (c <<< 16) ||| (2 ^ 8 * b + a) =
      2 ^ 16 * c + (2 ^ 8 * b + a) := by
    rw [Nat.shiftLeft_eq, Nat.mul_comm c,
      Nat.two_pow_add_eq_or_of_lt (by omega) c]
  have high : (d <<< 24) ||| (2 ^ 16 * c + (2 ^ 8 * b + a)) =
      2 ^ 24 * d + (2 ^ 16 * c + (2 ^ 8 * b + a)) := by
    rw [Nat.shiftLeft_eq, Nat.mul_comm d,
      Nat.two_pow_add_eq_or_of_lt (by omega) d]
  rw [Nat.or_assoc, Nat.or_assoc, low, middle, high]
  omega

/-- A field's byte spells a marker exactly when the field is excluded. -/
private theorem isMarker_double (field : Nat) :
    IsMarker (field * 2) ↔ ¬ FieldOk field := by
  unfold IsMarker FieldOk DCV LPV NPV
  omega

/-- What one pass of the loop does, in arithmetic form. -/
theorem halfIdIter_eq (number : Nat) :
    halfIdIter number =
      if FieldsOk (number % halfIdModulus) then
        .inr (halfIdOf (number % halfIdModulus), number % halfIdModulus + 1)
      else
        .inl (number % halfIdModulus + 1) := by
  have below : number % halfIdModulus < 268435455 :=
    Nat.mod_lt _ (by decide)
  unfold halfIdIter
  generalize number % halfIdModulus = residue at below
  have field (shift : Nat) :
      ((residue >>> shift) &&& 127) <<< 1 = residue / 2 ^ shift % 128 * 2 := by
    rw [Nat.shiftLeft_eq, Nat.shiftRight_eq_div_pow,
      show (127 : Nat) = 2 ^ 7 - 1 from rfl, Nat.and_two_pow_sub_one_eq_mod]
  have lastField : (residue &&& 127) <<< 1 = residue % 128 * 2 := by
    simpa using field 0
  have joined := @joinBytes
    (residue % 128 * 2) (residue / 2 ^ 7 % 128 * 2)
    (residue / 2 ^ 14 % 128 * 2) (residue / 2 ^ 21 % 128 * 2)
    (by omega) (by omega) (by omega)
  have thirdField : residue / 128 / 128 % 128 = residue / 2 ^ 14 % 128 := by
    omega
  have topField : residue / 128 / 128 / 128 = residue / 2 ^ 21 % 128 := by
    omega
  have condition :
      (¬ IsMarker (residue % 128 * 2) ∧
          ¬ IsMarker (residue / 2 ^ 7 % 128 * 2) ∧
          ¬ IsMarker (residue / 2 ^ 14 % 128 * 2) ∧
          ¬ IsMarker (residue / 2 ^ 21 % 128 * 2)) ↔
        FieldsOk residue := by
    simp only [isMarker_double, not_not, FieldsOk, SkipCounter.LastDigit,
      thirdField, topField]
    rfl
  simp only [field, lastField, condition, joined]
  rfl

/-- The loop never continues past the number zero. -/
theorem fieldsOk_zero : FieldsOk 0 := by
  decide

/--
The distance to the next multiple of the modulus, where the loop is sure to
break.
-/
private theorem halfIdIter_decreases
    {number next : Nat} (continues : halfIdIter number = .inl next) :
    (halfIdModulus - next % halfIdModulus) % halfIdModulus <
      (halfIdModulus - number % halfIdModulus) % halfIdModulus := by
  rw [halfIdIter_eq] at continues
  split at continues
  next => simp at continues
  next skipped =>
    have nonzero : number % halfIdModulus ≠ 0 := by
      intro zero
      exact skipped (zero ▸ fieldsOk_zero)
    have nextIs : next = number % halfIdModulus + 1 := by
      simpa using continues.symm
    unfold halfIdModulus at *
    omega

/--
`_convert_to_mcfi_half_id_format`: the next half id, and the running number left
behind.  The loop ends because the number wraps to zero, which has no excluded
field.
-/
def convertToMcfiHalfIdFormat (number : Nat) : Nat × Nat :=
  match _shape : halfIdIter number with
  | .inr result => result
  | .inl next => convertToMcfiHalfIdFormat next
termination_by (halfIdModulus - number % halfIdModulus) % halfIdModulus
decreasing_by exact halfIdIter_decreases _shape

/-- The encoder's loop breaks for every number, with the encoder's result. -/
theorem halfIdRun_convert (number : Nat) :
    ∃ passes, HalfIdRun number passes (convertToMcfiHalfIdFormat number) := by
  fun_induction convertToMcfiHalfIdFormat number with
  | case1 number result breaks =>
      exact ⟨1, .stop breaks⟩
  | case2 number next continues inductionHypothesis =>
      obtain ⟨passes, rest⟩ := inductionHypothesis
      exact ⟨passes + 1, .again continues rest⟩

/-- A run of the loop is a stop of the skipping counter. -/
theorem HalfIdRun.stops
    {number passes : Nat} {result : Nat × Nat}
    (run : HalfIdRun number passes result) :
    ∃ skipped stop,
      SkipCounter.Stops halfIdModulus FieldsOk number skipped stop ∧
        result = (halfIdOf stop, stop + 1) := by
  induction run with
  | @stop number result breaks =>
      rw [halfIdIter_eq] at breaks
      split at breaks
      next valid =>
        refine ⟨0, number % halfIdModulus, ⟨rfl, valid, by simp⟩, ?_⟩
        simpa using breaks.symm
      next => simp at breaks
  | @again number next passes result continues rest inductionHypothesis =>
      rw [halfIdIter_eq] at continues
      split at continues
      next => simp at continues
      next invalid =>
        obtain ⟨skipped, stop, stops, resultIs⟩ := inductionHypothesis
        have nextIs : next = number % halfIdModulus + 1 := by
          simpa using continues.symm
        have shift : ∀ offset,
            (next + offset) % halfIdModulus =
              (number + (offset + 1)) % halfIdModulus := by
          intro offset
          rw [nextIs, Nat.add_assoc, Nat.mod_add_mod, Nat.add_comm 1 offset]
        refine ⟨skipped + 1, stop, ⟨?_, ?_, ?_⟩, resultIs⟩
        · rw [stops.isStop, shift]
        · simpa only [SkipCounter.Periodic, shift] using stops.stopValid
        · intro earlier below
          cases earlier with
          | zero =>
              exact invalid
          | succ earlier =>
              have later := stops.skippedInvalid earlier (by omega)
              simpa only [SkipCounter.Periodic, shift] using later

/-- The encoder stops at a valid number and moves one past it. -/
theorem convert_stops (number : Nat) :
    ∃ skipped stop,
      SkipCounter.Stops halfIdModulus FieldsOk number skipped stop ∧
        convertToMcfiHalfIdFormat number = (halfIdOf stop, stop + 1) := by
  obtain ⟨_, run⟩ := halfIdRun_convert number
  exact run.stops

/-- Of the 128 values of a field, 125 spell no marker. -/
theorem count_fieldOk : Nat.count FieldOk 128 = 125 := by
  decide +kernel

/-- There are `125^4` numbers without an excluded field. -/
theorem period_eq : SkipCounter.period halfIdModulus FieldsOk = 125 ^ 4 := by
  have last : Nat.count FieldsOk (halfIdModulus + 1) =
      SkipCounter.period halfIdModulus FieldsOk := by
    have excluded : ¬ FieldsOk halfIdModulus := by decide +kernel
    rw [SkipCounter.period, Nat.count_succ, if_neg excluded, Nat.add_zero]
  have product :
      Nat.count (SkipCounter.LastDigit 128 FieldOk
          (SkipCounter.LastDigit 128 FieldOk
            (SkipCounter.LastDigit 128 FieldOk FieldOk)))
        (128 * (128 * (128 * 128))) = 125 ^ 4 := by
    rw [SkipCounter.count_lastDigit, SkipCounter.count_lastDigit,
      SkipCounter.count_lastDigit, count_fieldOk]
    rfl
  exact last.symm.trans product

/-- The encoder never runs out of numbers. -/
theorem fieldsOk_infinite :
    (Set.ofPred (SkipCounter.Periodic halfIdModulus FieldsOk)).Infinite :=
  SkipCounter.periodic_infinite (by decide) 0 fieldsOk_zero

/-- The running number after a number of calls. -/
def numberAfter (number : Nat) : Nat → Nat
  | 0 => number
  | calls + 1 => (convertToMcfiHalfIdFormat (numberAfter number calls)).2

/-- The half id produced by a call, counted from zero. -/
def halfIdAt (number call : Nat) : Nat :=
  (convertToMcfiHalfIdFormat (numberAfter number call)).1

/-- The first of several calls can be taken off the front. -/
theorem numberAfter_succ_front (number calls : Nat) :
    numberAfter number (calls + 1) =
      numberAfter (convertToMcfiHalfIdFormat number).2 calls := by
  induction calls with
  | zero => rfl
  | succ calls inductionHypothesis =>
      rw [numberAfter, inductionHypothesis]
      rfl

/-- The half ids after the first one are those of a later start. -/
theorem halfIdAt_succ_front (number call : Nat) :
    halfIdAt number (call + 1) =
      halfIdAt (convertToMcfiHalfIdFormat number).2 call := by
  rw [halfIdAt, numberAfter_succ_front]
  rfl

/-- Calls after a number of calls are later calls. -/
theorem numberAfter_add (number earlier later : Nat) :
    numberAfter (numberAfter number earlier) later =
      numberAfter number (earlier + later) := by
  induction later with
  | zero => rfl
  | succ later inductionHypothesis =>
      rw [← Nat.add_assoc, numberAfter, numberAfter, inductionHypothesis]

/-- The half ids after a number of calls are those of later calls. -/
theorem halfIdAt_numberAfter (number earlier call : Nat) :
    halfIdAt (numberAfter number earlier) call =
      halfIdAt number (earlier + call) := by
  rw [halfIdAt, numberAfter_add]
  rfl

/-- Each call produces the half id of the next stop of the counter. -/
theorem halfIdAt_eq (number call : Nat) :
    halfIdAt number call =
      halfIdOf (SkipCounter.stopAt halfIdModulus FieldsOk
        (Nat.count (SkipCounter.Periodic halfIdModulus FieldsOk) number +
          call)) := by
  -- `place` is where the counter would be had it never wrapped
  have track :
      ∃ place,
        numberAfter number call % halfIdModulus = place % halfIdModulus ∧
          Nat.count (SkipCounter.Periodic halfIdModulus FieldsOk) place =
            Nat.count (SkipCounter.Periodic halfIdModulus FieldsOk) number +
              call := by
    induction call with
    | zero =>
        exact ⟨number, rfl, rfl⟩
    | succ call inductionHypothesis =>
        obtain ⟨place, sameResidue, counted⟩ := inductionHypothesis
        obtain ⟨skipped, stop, stops, converted⟩ :=
          convert_stops (numberAfter number call)
        refine ⟨place + skipped + 1, ?_, ?_⟩
        · rw [numberAfter, converted, stops.isStop, Nat.mod_add_mod,
            Nat.add_assoc, Nat.add_mod, sameResidue, ← Nat.add_mod,
            Nat.add_assoc]
        · rw [(stops.eq_stopAt sameResidue).2, counted, Nat.add_assoc]
  obtain ⟨place, sameResidue, counted⟩ := track
  obtain ⟨skipped, stop, stops, converted⟩ :=
    convert_stops (numberAfter number call)
  rw [halfIdAt, converted, (stops.eq_stopAt sameResidue).1, counted]

/-- Different numbers below `2^28` have different half ids. -/
theorem halfIdOf_injective
    {first second : Nat}
    (firstBelow : first < 268435456) (secondBelow : second < 268435456)
    (same : halfIdOf first = halfIdOf second) :
    first = second := by
  unfold halfIdOf at same
  omega

/-- The stops of the counter lie below the modulus. -/
theorem stopAt_lt (index : Nat) :
    SkipCounter.stopAt halfIdModulus FieldsOk index < 268435456 := by
  have below :
      SkipCounter.stopAt halfIdModulus FieldsOk index < halfIdModulus :=
    Nat.mod_lt _ (by decide)
  exact Nat.lt_trans below (by decide)

/--
Two calls produce one half id exactly when they are a multiple of `125^4` calls
apart.
-/
theorem halfIdAt_eq_iff (number first second : Nat) :
    halfIdAt number first = halfIdAt number second ↔
      first % 125 ^ 4 = second % 125 ^ 4 := by
  have positive : 0 < SkipCounter.period halfIdModulus FieldsOk := by
    rw [period_eq]
    decide
  have sameStop :=
    SkipCounter.stopAt_eq_iff fieldsOk_infinite positive
      (Nat.count (SkipCounter.Periodic halfIdModulus FieldsOk) number + first)
      (Nat.count (SkipCounter.Periodic halfIdModulus FieldsOk) number + second)
  rw [period_eq] at sameStop
  rw [halfIdAt_eq, halfIdAt_eq]
  constructor
  · intro same
    have stops := sameStop.mp
      (halfIdOf_injective (stopAt_lt _) (stopAt_lt _) same)
    omega
  · intro same
    rw [sameStop.mpr (by omega)]

/--
The shape of a half id: four bytes, each with its lowest bit clear and none a
marker.
-/
structure HalfIdFormat (half : Nat) : Prop where
  isFourBytes : half < 2 ^ 32
  fieldEven : ∀ k, k < 4 → half / 256 ^ k % 256 % 2 = 0
  fieldNotMarker : ∀ k, k < 4 → ¬ IsMarker (half / 256 ^ k % 256)

/-- Half ids of valid numbers have the shape of half ids. -/
theorem halfIdOf_format
    {number : Nat} (below : number < 268435456) (valid : FieldsOk number) :
    HalfIdFormat (halfIdOf number) := by
  obtain ⟨okA, okB, okC, okD⟩ := valid
  rw [Nat.div_div_eq_div_mul] at okC okD
  rw [Nat.div_div_eq_div_mul] at okD
  have bytes :
      halfIdOf number % 256 = number % 128 * 2 ∧
        halfIdOf number / 256 % 256 = number / 128 % 128 * 2 ∧
        halfIdOf number / 65536 % 256 = number / 16384 % 128 * 2 ∧
        halfIdOf number / 16777216 % 256 = number / 2097152 * 2 ∧
        halfIdOf number < 2 ^ 32 := by
    have topField : number / 2097152 % 128 = number / 2097152 := by omega
    have topBelow : number / 2097152 < 128 := by omega
    unfold halfIdOf
    rw [topField]
    have belowA := Nat.mod_lt number (show 128 > 0 by decide)
    have belowB := Nat.mod_lt (number / 128) (show 128 > 0 by decide)
    have belowC := Nat.mod_lt (number / 16384) (show 128 > 0 by decide)
    generalize number % 128 = a at *
    generalize number / 128 % 128 = b at *
    generalize number / 16384 % 128 = c at *
    generalize number / 2097152 = d at *
    omega
  obtain ⟨byteA, byteB, byteC, byteD, small⟩ := bytes
  have field : ∀ k, k < 4 →
      ∃ digit, FieldOk digit ∧
        halfIdOf number / 256 ^ k % 256 = digit * 2 := by
    intro k inRange
    match k, inRange with
    | 0, _ => exact ⟨_, okA, by simpa using byteA⟩
    | 1, _ => exact ⟨_, okB, by simpa using byteB⟩
    | 2, _ => exact ⟨_, okC, by simpa using byteC⟩
    | 3, _ => exact ⟨_, okD, by simpa using byteD⟩
  refine ⟨small, ?_, ?_⟩
  · intro k inRange
    obtain ⟨digit, _, byteIs⟩ := field k inRange
    omega
  · intro k inRange
    obtain ⟨digit, ok, byteIs⟩ := field k inRange
    rw [byteIs, isMarker_double]
    exact fun bad => bad ok

/-- Every half id the encoder produces has the shape of half ids. -/
theorem convert_format (number : Nat) :
    HalfIdFormat (convertToMcfiHalfIdFormat number).1 := by
  obtain ⟨skipped, stop, stops, converted⟩ := convert_stops number
  have below : stop < halfIdModulus := by
    rw [stops.isStop]
    exact Nat.mod_lt _ (by decide)
  have valid : FieldsOk stop := by
    rw [stops.isStop]
    exact stops.stopValid
  rw [converted]
  exact halfIdOf_format (Nat.lt_trans below (by decide)) valid

end Mcfi
