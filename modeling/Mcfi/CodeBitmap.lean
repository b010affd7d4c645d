import Mcfi.CodeHeap

namespace Mcfi

open ByteMem

/-!
# The bitmap of code and data

One bit of `code_data_bitmap` stands for one byte of a code heap.  `set_code`
works on single bits in short ranges and on whole bytes in long ones;
`which_area` counts bits.
-/

/-- Keep some bits of one byte. -/
def andByte (bmp : ByteMem) (addr mask : Nat) : ByteMem :=
  bmp.storeByte addr (bmp addr &&& UInt8.ofNat mask)

/--
`set_data`.  The partial first byte of a long range is stored at the byte index
`base_align`, as the source has it.
-/
def setData (cdbmp : ByteMem) (base len : Nat) : ByteMem :=
  if len < 16 then
    (List.range len).foldl (fun bmp k =>
      andByte bmp ((base + k) / 8) (0xff - 2 ^ ((base + k) % 8))) cdbmp
  else
    let shift := base % 8
    let head := if shift ≠ 0 then 8 - shift else 0
    let cdbmp :=
      if shift ≠ 0 then
        andByte cdbmp (base - shift) (0xff / 2 ^ (8 - shift))
      else
        cdbmp
    let base := base + head
    let len := len - head
    let trailLen := len % 8
    let cdbmp :=
      if trailLen ≠ 0 then
        andByte cdbmp ((base + (len - trailLen)) / 8)
          (0xff * 2 ^ trailLen % 256)
      else
        cdbmp
    (List.range (len / 8)).foldl (fun bmp k =>
      bmp.storeByte (base / 8 + k) 0) cdbmp

/-- The bitmap marks a byte of the heap as code. -/
def marked (bmp : ByteMem) (k : Nat) : Bool :=
  (bmp (k / 8)).toNat.testBit (k % 8)

/-- Setting the bits of a mask in one byte marks what the mask selects. -/
theorem marked_orByte (bmp : ByteMem) (addr k : Nat) {mask : Nat}
    (small : mask < 256) :
    marked (orByte bmp addr mask) k =
      (marked bmp k || (k / 8 == addr && mask.testBit (k % 8))) := by
  unfold marked orByte storeByte
  split
  next here =>
    simp [here, UInt8.toNat_or, Nat.testBit_or, Nat.mod_eq_of_lt small]
  next elsewhere =>
    simp [elsewhere]

/-- Setting all the bits of a byte. -/
theorem marked_storeByte_full (bmp : ByteMem) (addr k : Nat) :
    marked (bmp.storeByte addr 0xff) k = (marked bmp k || k / 8 == addr) := by
  have bits : ∀ j < 8, Nat.testBit 255 j = true := by decide
  have bit := bits (k % 8) (Nat.mod_lt k (by decide))
  unfold marked storeByte
  split
  next here => simp [here, bit]
  next elsewhere => simp [elsewhere]

/-- The bit by bit loop marks its range. -/
private theorem marked_setBits (bmp : ByteMem) (base len k : Nat) :
    marked ((List.range len).foldl (fun bmp j =>
      orByte bmp ((base + j) / 8) (2 ^ ((base + j) % 8))) bmp) k = true ↔
      marked bmp k = true ∨ (base ≤ k ∧ k < base + len) := by
  induction len with
  | zero =>
      have nothing : ¬ (base ≤ k ∧ k < base + 0) := by omega
      simp only [List.range_zero, List.foldl_nil, nothing, or_false]
  | succ len inductionHypothesis =>
      have small : 2 ^ ((base + len) % 8) < 256 := by
        have below : (base + len) % 8 < 8 := Nat.mod_lt _ (by decide)
        calc 2 ^ ((base + len) % 8) < 2 ^ 8 :=
              Nat.pow_lt_pow_right (by decide) below
          _ = 256 := rfl
      rw [List.range_succ, List.foldl_append, List.foldl_cons, List.foldl_nil,
        marked_orByte _ _ _ small, Bool.or_eq_true, inductionHypothesis,
        Bool.and_eq_true, beq_iff_eq, Nat.testBit_two_pow, decide_eq_true_eq,
        or_assoc]
      exact or_congr_right (by omega)

/-- The byte by byte loop marks whole bytes. -/
private theorem marked_setBytes (bmp : ByteMem) (first count k : Nat) :
    marked ((List.range count).foldl (fun bmp j =>
      bmp.storeByte (first + j) 0xff) bmp) k = true ↔
      marked bmp k = true ∨ (first ≤ k / 8 ∧ k / 8 < first + count) := by
  induction count with
  | zero =>
      have nothing : ¬ (first ≤ k / 8 ∧ k / 8 < first + 0) := by omega
      simp only [List.range_zero, List.foldl_nil, nothing, or_false]
  | succ count inductionHypothesis =>
      rw [List.range_succ, List.foldl_append, List.foldl_cons, List.foldl_nil,
        marked_storeByte_full, Bool.or_eq_true, inductionHypothesis, beq_iff_eq,
        or_assoc]
      exact or_congr_right (by omega)

/--
The bits that `set_code` and `set_data` write: in a long range from an unaligned
base on, those of the first byte are taken from the byte with index `base_align`.
-/
def Written (base len k : Nat) : Prop :=
  if len < 16 ∨ base % 8 = 0 then
    base ≤ k ∧ k < base + len
  else
    8 * (base - base % 8) + base % 8 ≤ k ∧ k < 8 * (base - base % 8) + 8 ∨
      base - base % 8 + 8 ≤ k ∧ k < base + len

instance (base len k : Nat) : Decidable (Written base len k) :=
  inferInstanceAs (Decidable (if len < 16 ∨ base % 8 = 0 then
      base ≤ k ∧ k < base + len
    else
      8 * (base - base % 8) + base % 8 ≤ k ∧ k < 8 * (base - base % 8) + 8 ∨
        base - base % 8 + 8 ≤ k ∧ k < base + len))

/-- `set_code` marks what it writes and nothing else. -/
theorem marked_setCode_iff (bmp : ByteMem) (base len k : Nat) :
    marked (setCode bmp base len) k = true ↔
      marked bmp k = true ∨ Written base len k := by
  unfold setCode Written
  by_cases short : len < 16
  · rw [if_pos short, if_pos (.inl short)]
    exact marked_setBits bmp base len k
  have trail (bmp : ByteMem) (base len : Nat) (aligned : base % 8 = 0) :
      marked ((List.range (len / 8)).foldl
          (fun bmp j => bmp.storeByte (base / 8 + j) 0xff)
          (if len % 8 ≠ 0 then
            orByte bmp ((base + (len - len % 8)) / 8) (2 ^ (len % 8) - 1)
          else bmp)) k = true ↔
        marked bmp k = true ∨ (base ≤ k ∧ k < base + len) := by
    rw [marked_setBytes]
    split
    next =>
      have small : 2 ^ (len % 8) - 1 < 256 := by
        have below : len % 8 < 8 := Nat.mod_lt _ (by decide)
        have power : 2 ^ (len % 8) < 2 ^ 8 :=
          Nat.pow_lt_pow_right (by decide) below
        omega
      rw [marked_orByte _ _ _ small, Bool.or_eq_true, Bool.and_eq_true,
        beq_iff_eq, Nat.testBit_two_pow_sub_one, decide_eq_true_eq, or_assoc]
      exact or_congr_right (by omega)
    next => exact or_congr_right (by omega)
  rw [if_neg short]
  by_cases aligned : base % 8 = 0
  · simp only [aligned, ne_eq, not_true_eq_false, if_false, Nat.add_zero, Nat.sub_zero,
      or_true, if_true]
    exact trail bmp base len aligned
  · have bits : ∀ i < 8, ∀ j < 8,
        Nat.testBit (0xff / 2 ^ j * 2 ^ j) i = true ↔ j ≤ i := by decide
    have bit := bits (k % 8) (Nat.mod_lt k (by decide)) (base % 8)
      (Nat.mod_lt _ (by decide))
    have small : 0xff / 2 ^ (base % 8) * 2 ^ (base % 8) < 256 :=
      (Nat.div_mul_le_self _ _).trans_lt (by decide)
    simp only [short, aligned, ne_eq, not_false_eq_true, if_true, or_self, if_false]
    refine (trail _ _ _ (by omega)).trans ?_
    rw [marked_orByte _ _ _ small, Bool.or_eq_true, Bool.and_eq_true, beq_iff_eq, bit,
      or_assoc]
    exact or_congr_right (by omega)

/-- From an aligned base on, `set_code` marks its range and nothing else. -/
theorem marked_setCode
    (bmp : ByteMem) {base : Nat} (len k : Nat) (aligned : base % 8 = 0) :
    marked (setCode bmp base len) k = true ↔
      marked bmp k = true ∨ (base ≤ k ∧ k < base + len) := by
  rw [marked_setCode_iff, Written, if_pos (.inr aligned)]

/-- Keeping the bits of a mask in one byte. -/
theorem marked_andByte (bmp : ByteMem) (addr k : Nat) {mask : Nat}
    (small : mask < 256) :
    marked (andByte bmp addr mask) k =
      (marked bmp k && (k / 8 != addr || mask.testBit (k % 8))) := by
  unfold marked andByte storeByte
  split
  next here =>
    simp [here, UInt8.toNat_and, Nat.testBit_and, Nat.mod_eq_of_lt small]
  next elsewhere =>
    simp [elsewhere]

/-- Clearing all the bits of a byte. -/
theorem marked_storeByte_zero (bmp : ByteMem) (addr k : Nat) :
    marked (bmp.storeByte addr 0) k = (marked bmp k && k / 8 != addr) := by
  unfold marked storeByte
  split
  next here => simp [here]
  next elsewhere => simp [elsewhere]

/-- The bit by bit loop clears its range. -/
private theorem marked_clearBits (bmp : ByteMem) (base len k : Nat) :
    marked ((List.range len).foldl (fun bmp j =>
      andByte bmp ((base + j) / 8) (0xff - 2 ^ ((base + j) % 8))) bmp) k =
        true ↔
      marked bmp k = true ∧ ¬ (base ≤ k ∧ k < base + len) := by
  induction len with
  | zero =>
      have nothing : ¬ (base ≤ k ∧ k < base + 0) := by omega
      simp only [List.range_zero, List.foldl_nil, nothing, not_false_eq_true,
        and_true]
  | succ len inductionHypothesis =>
      have bits : ∀ i < 8, ∀ j < 8,
          Nat.testBit (0xff - 2 ^ j) i = true ↔ i ≠ j := by decide
      have bit := bits (k % 8) (Nat.mod_lt k (by decide)) ((base + len) % 8)
        (Nat.mod_lt _ (by decide))
      rw [List.range_succ, List.foldl_append, List.foldl_cons, List.foldl_nil,
        marked_andByte _ _ _ ((Nat.sub_le _ _).trans_lt (by decide)),
        Bool.and_eq_true, inductionHypothesis, Bool.or_eq_true, bne_iff_ne, bit, and_assoc]
      exact and_congr_right (fun _ => by omega)

/-- The byte by byte loop clears whole bytes. -/
private theorem marked_clearBytes (bmp : ByteMem) (first count k : Nat) :
    marked ((List.range count).foldl (fun bmp j =>
      bmp.storeByte (first + j) 0) bmp) k = true ↔
      marked bmp k = true ∧ ¬ (first ≤ k / 8 ∧ k / 8 < first + count) := by
  induction count with
  | zero =>
      have nothing : ¬ (first ≤ k / 8 ∧ k / 8 < first + 0) := by omega
      simp only [List.range_zero, List.foldl_nil, nothing, not_false_eq_true,
        and_true]
  | succ count inductionHypothesis =>
      rw [List.range_succ, List.foldl_append, List.foldl_cons, List.foldl_nil,
        marked_storeByte_zero, Bool.and_eq_true, inductionHypothesis,
        bne_iff_ne, and_assoc]
      exact and_congr_right (fun _ => by omega)

/-- `set_data` clears what it writes and nothing else. -/
theorem marked_setData_iff (bmp : ByteMem) (base len k : Nat) :
    marked (setData bmp base len) k = true ↔
      marked bmp k = true ∧ ¬ Written base len k := by
  unfold setData Written
  by_cases short : len < 16
  · rw [if_pos short, if_pos (.inl short)]
    exact marked_clearBits bmp base len k
  have trail (bmp : ByteMem) (base len : Nat) (aligned : base % 8 = 0) :
      marked ((List.range (len / 8)).foldl
          (fun bmp j => bmp.storeByte (base / 8 + j) 0)
          (if len % 8 ≠ 0 then
            andByte bmp ((base + (len - len % 8)) / 8) (0xff * 2 ^ (len % 8) % 256)
          else bmp)) k = true ↔
        marked bmp k = true ∧ ¬ (base ≤ k ∧ k < base + len) := by
    rw [marked_clearBytes]
    split
    next =>
      have bits : ∀ i < 8, ∀ j < 8,
          Nat.testBit (0xff * 2 ^ j % 256) i = true ↔ j ≤ i := by decide
      have bit := bits (k % 8) (Nat.mod_lt k (by decide)) (len % 8)
        (Nat.mod_lt _ (by decide))
      rw [marked_andByte _ _ _ (Nat.mod_lt _ (by decide)), Bool.and_eq_true,
        Bool.or_eq_true, bne_iff_ne, bit, and_assoc]
      exact and_congr_right (fun _ => by omega)
    next => exact and_congr_right (fun _ => by omega)
  rw [if_neg short]
  by_cases aligned : base % 8 = 0
  · simp only [aligned, ne_eq, not_true_eq_false, if_false, Nat.add_zero, Nat.sub_zero,
      or_true, if_true]
    exact trail bmp base len aligned
  · have bits : ∀ i < 8, ∀ j < 8,
        Nat.testBit (0xff / 2 ^ (8 - j)) i = true ↔ i < j := by decide
    have bit := bits (k % 8) (Nat.mod_lt k (by decide)) (base % 8)
      (Nat.mod_lt _ (by decide))
    have small : 0xff / 2 ^ (8 - base % 8) < 256 :=
      (Nat.div_le_self _ _).trans_lt (by decide)
    simp only [short, aligned, ne_eq, not_false_eq_true, if_true, or_self, if_false]
    refine (trail _ _ _ (by omega)).trans ?_
    rw [marked_andByte _ _ _ small, Bool.and_eq_true, Bool.or_eq_true, bne_iff_ne, bit,
      and_assoc]
    exact and_congr_right (fun _ => by omega)

/--
From an aligned base on, and in short ranges, `set_data` clears its range and
nothing else.
-/
theorem marked_setData
    (bmp : ByteMem) {base : Nat} (len k : Nat)
    (exact : base % 8 = 0 ∨ len < 16) :
    marked (setData bmp base len) k = true ↔
      marked bmp k = true ∧ ¬ (base ≤ k ∧ k < base + len) := by
  rw [marked_setData_iff, Written, if_pos exact.symm]

/-- Short ranges are code when each of their bytes is marked. -/
theorem whichArea_code
    (bmp : ByteMem) (base : Nat) {len : Nat} (short : len < 32) :
    whichArea bmp base len = .code ↔ ∀ k < len, marked bmp (base + k) = true := by
  have counted : countBits bmp base len = len ↔
      ∀ k < len, marked bmp (base + k) = true := by
    have all := List.length_filter_eq_length_iff (l := List.range len)
      (p := fun k => decide ((bmp ((base + k) / 8)).toNat /
        2 ^ ((base + k) % 8) % 2 = 1))
    rw [List.length_range] at all
    rw [countBits, all]
    simp only [List.mem_range, marked, Nat.testBit_eq_decide_div_mod_eq]
  unfold whichArea
  simp only [short, if_true]
  split
  next full => exact ⟨fun _ => counted.mp full, fun _ => rfl⟩
  next partly =>
    refine ⟨fun isCode => ?_, fun isMarked => absurd (counted.mpr isMarked) partly⟩
    split at isCode <;> cases isCode

end Mcfi
