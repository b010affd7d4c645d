import Mcfi.CodeBitmap

namespace Mcfi

open ByteMem

/-!
# What the bitmap calls do

`which_area` counts the bits of a range by whole words, and `set_code` and
`set_data` write long ranges by whole bytes.  The answer of the first is compared
with the count bit by bit, and the effect of the others with the range that they
are called for.
-/

section Counting

/-- The answer of `which_area` when the bits are counted one by one. -/
def countedArea (cdbmp : ByteMem) (base len : Nat) : Area :=
  if countBits cdbmp base len = len then .code
  else if countBits cdbmp base len = 0 then .data
  else .invalid

/-- The bits in front of the first byte boundary of a range. -/
def headBits (base : Nat) : Nat :=
  if base % 8 ≠ 0 then 8 - base % 8 else 0

/-- A bit of a long range that lies in a whole word behind the first one. -/
def LaterWord (base len k : Nat) : Prop :=
  32 ≤ len ∧ headBits base + 64 ≤ k ∧
    k < headBits base + (len - headBits base) / 64 * 64

/-- `which_area` answers as it should, and as the count bit by bit. -/
structure AreaExact (bmp : ByteMem) (base len : Nat) : Prop where
  code : whichArea bmp base len = .code ↔ ∀ k < len, marked bmp (base + k) = true
  data : whichArea bmp base len = .data ↔ ∀ k < len, marked bmp (base + k) = false
  invalid : whichArea bmp base len = .invalid ↔
    (∃ k < len, marked bmp (base + k) = false) ∧
      ∃ k < len, marked bmp (base + k) = true
  counted : whichArea bmp base len = countedArea bmp base len

/--
The words behind the first are marked as the rest of the range, when that is all
code or all data.
-/
def LaterWordsAgree (bmp : ByteMem) (base len : Nat) : Prop :=
  ∀ value : Bool,
    (∀ k < len, ¬ LaterWord base len k → marked bmp (base + k) = value) →
      ∀ k, LaterWord base len k → marked bmp (base + k) = value

variable {bmp : ByteMem} {base len : Nat}

/-- The bits are counted that are marked. -/
theorem countBits_eq_countP (bmp : ByteMem) (base len : Nat) :
    countBits bmp base len =
      (List.range len).countP fun k => marked bmp (base + k) := by
  rw [countBits, List.countP_eq_length_filter]
  congr 2
  funext k
  rw [marked, Nat.testBit_eq_decide_div_mod_eq]

theorem countBits_le (bmp : ByteMem) (base len : Nat) : countBits bmp base len ≤ len := by
  rw [countBits_eq_countP]
  exact List.countP_le_length.trans_eq List.length_range

theorem countBits_full :
    countBits bmp base len = len ↔ ∀ k < len, marked bmp (base + k) = true := by
  have full := List.countP_eq_length (l := List.range len)
    (p := fun k => marked bmp (base + k))
  rw [List.length_range] at full
  rw [countBits_eq_countP, full]
  simp only [List.mem_range]

theorem countBits_zero :
    countBits bmp base len = 0 ↔ ∀ k < len, marked bmp (base + k) = false := by
  rw [countBits_eq_countP, List.countP_eq_zero]
  simp only [List.mem_range, Bool.not_eq_true]

/-- A range is counted in two parts. -/
theorem countBits_add (bmp : ByteMem) (base first second : Nat) :
    countBits bmp base (first + second) =
      countBits bmp base first + countBits bmp (base + first) second := by
  simp only [countBits_eq_countP, List.range_add, List.countP_append, List.countP_map]
  congr 2
  funext k
  simp only [Function.comp_apply, Nat.add_assoc]

/-- The ones of a word of the bitmap are its marked bits. -/
theorem popcount_load64 (bmp : ByteMem) (addr : Nat) :
    popcount (bmp.load64 addr) = countBits bmp (8 * addr) 64 := by
  rw [popcount, countBits]
  congr 1
  refine List.filter_congr fun k listed => ?_
  have small : k < 64 := List.mem_range.mp listed
  have place : (8 * addr + k) / 8 = addr + k / 8 := by omega
  have offset : (8 * addr + k) % 8 = k % 8 := by omega
  have power : 256 ^ (k / 8) = 2 ^ (8 * (k / 8)) := by rw [Nat.pow_mul]
  have whole : 8 * (k / 8) + k % 8 = k := Nat.div_add_mod k 8
  rw [place, offset, byte_eq_load bmp addr 8 (by omega), power,
    ← Nat.testBit_eq_decide_div_mod_eq, ← Nat.testBit_eq_decide_div_mod_eq,
    show (256 : Nat) = 2 ^ 8 from rfl, Nat.testBit_mod_two_pow, Nat.testBit_div_two_pow,
    Nat.add_comm, whole]
  simp [Nat.mod_lt k (by decide : 0 < 8), load64]

/-- The first boundary of a byte in a range is one. -/
theorem headBits_boundary (base : Nat) :
    8 * ((base + headBits base) / 8) = base + headBits base := by
  unfold headBits
  split <;> omega

theorem headBits_lt (base : Nat) : headBits base < 8 := by
  unfold headBits
  split <;> omega

/-- Outside the later words a long range has a head, a tail and a first word. -/
private theorem outside_laterWords (long : 32 ≤ len) (value : Bool) :
    (∀ k < len, ¬ LaterWord base len k → marked bmp (base + k) = value) ↔
      (∀ k < headBits base, marked bmp (base + k) = value) ∧
      (∀ k < (len - headBits base) % 64, marked bmp
        (base + headBits base + (len - headBits base - (len - headBits base) % 64) + k) =
          value) ∧
      ((len - headBits base) / 64 = 0 ∨
        ∀ k < 64, marked bmp (base + headBits base + k) = value) := by
  have head := headBits_lt base
  simp only [LaterWord]
  generalize headBits base = first at head ⊢
  constructor
  · intro same
    refine ⟨fun k below => same k (by omega) (by omega), fun k below => ?_, ?_⟩
    · rw [Nat.add_assoc, Nat.add_assoc]
      exact same _ (by omega) (by omega)
    · rcases Nat.eq_zero_or_pos ((len - first) / 64) with none | some
      · exact .inl none
      · refine .inr fun k below => ?_
        rw [Nat.add_assoc]
        exact same _ (by omega) (by omega)
  · rintro ⟨headSame, tailSame, wordSame⟩ k below outside
    by_cases inHead : k < first
    · exact headSame k inHead
    by_cases inWord : k < first + 64 ∧ 0 < (len - first) / 64
    · have same := wordSame.resolve_left (by omega) (k - first) (by omega)
      rwa [Nat.add_assoc, Nat.add_sub_cancel' (by omega)] at same
    · have same := tailSame (k - first - (len - first - (len - first) % 64)) (by omega)
      have place : base + first + (len - first - (len - first) % 64) +
          (k - first - (len - first - (len - first) % 64)) = base + k := by
        omega
      rwa [place] at same

/-- The sum of `which_area` over a long range counts the first word for each word. -/
private theorem whichArea_long (long : 32 ≤ len) :
    whichArea bmp base len =
      let rest := len - headBits base
      let bitsum := countBits bmp base (headBits base) +
        countBits bmp (base + headBits base + (rest - rest % 64)) (rest % 64) +
          rest / 64 * countBits bmp (base + headBits base) 64
      if bitsum = len then .code else if bitsum = 0 then .data else .invalid := by
  have word := popcount_load64 bmp ((base + headBits base) / 8)
  rw [headBits_boundary] at word
  have head : (if base % 8 ≠ 0 then countBits bmp base (headBits base) else 0) =
      countBits bmp base (headBits base) := by
    unfold headBits
    split <;> rfl
  have trail : ∀ start length : Nat,
      (if length ≠ 0 then countBits bmp start length else 0) =
        countBits bmp start length := by
    intro start length
    split
    · rfl
    next none =>
      rw [not_not.mp none]
      rfl
  have fold : (if base % 8 ≠ 0 then 8 - base % 8 else 0) = headBits base := rfl
  unfold whichArea
  simp only [if_neg (Nat.not_lt.mpr long), trail, fold, head, word]

/-- A sum of three bounded parts is as large as can be when each part is. -/
private theorem sum_full {first last word head tail : Nat} (count : Nat)
    (headLe : first ≤ head) (tailLe : last ≤ tail) (wordLe : word ≤ 64) :
    first + last + count * word = head + tail + count * 64 ↔
      first = head ∧ last = tail ∧ (count = 0 ∨ word = 64) := by
  have words : count * word ≤ count * 64 := Nat.mul_le_mul_left count wordLe
  constructor
  · intro full
    refine ⟨by omega, by omega, ?_⟩
    rcases Nat.eq_zero_or_pos count with none | some
    · exact .inl none
    · exact .inr (Nat.eq_of_mul_eq_mul_left some (by omega))
  · rintro ⟨rfl, rfl, rfl | rfl⟩
    · omega
    · rfl

/-- `which_area` finds code where all but the later words is marked. -/
theorem whichArea_code_iff :
    whichArea bmp base len = .code ↔
      ∀ k < len, ¬ LaterWord base len k → marked bmp (base + k) = true := by
  by_cases long : 32 ≤ len
  · have head := headBits_lt base
    have parts : len = headBits base + (len - headBits base) % 64 +
        (len - headBits base) / 64 * 64 := by
      omega
    have full := sum_full ((len - headBits base) / 64)
      (countBits_le bmp base (headBits base))
      (countBits_le bmp (base + headBits base +
        (len - headBits base - (len - headBits base) % 64)) ((len - headBits base) % 64))
      (countBits_le bmp (base + headBits base) 64)
    rw [← parts, countBits_full, countBits_full, countBits_full] at full
    rw [outside_laterWords long, ← full, whichArea_long long]
    simp only
    split
    next isFull => exact ⟨fun _ => isFull, fun _ => rfl⟩
    next partly =>
      refine ⟨fun isCode => ?_, fun isFull => absurd isFull partly⟩
      split at isCode <;> exact nomatch isCode
  · rw [whichArea_code bmp base (Nat.lt_of_not_le long)]
    exact forall₂_congr fun k _ => ⟨fun isMarked _ => isMarked,
      fun isMarked => isMarked fun later => long later.1⟩

/-- `which_area` finds data where nothing but in the later words is marked. -/
theorem whichArea_data_iff (positive : 0 < len) :
    whichArea bmp base len = .data ↔
      ∀ k < len, ¬ LaterWord base len k → marked bmp (base + k) = false := by
  by_cases long : 32 ≤ len
  · rw [outside_laterWords long, ← countBits_zero, ← countBits_zero, ← countBits_zero,
      whichArea_long long]
    simp only
    split
    next isFull =>
      refine ⟨(fun never => nomatch never), fun ⟨noHead, noTail, noWord⟩ => ?_⟩
      rw [noHead, noTail] at isFull
      rcases noWord with none | none <;> rw [none] at isFull <;> omega
    next =>
      split
      next none =>
        refine ⟨fun _ => ⟨by omega, by omega, ?_⟩, fun _ => rfl⟩
        exact Nat.mul_eq_zero.mp (by omega)
      next some =>
        refine ⟨(fun never => nomatch never), fun ⟨noHead, noTail, noWord⟩ => ?_⟩
        rw [noHead, noTail, Nat.mul_eq_zero.mpr noWord] at some
        exact absurd rfl some
  · have short : len < 32 := Nat.lt_of_not_le long
    have counted : whichArea bmp base len = .data ↔ countBits bmp base len = 0 := by
      unfold whichArea
      simp only [if_pos short]
      split
      next isFull => exact ⟨(fun never => nomatch never), fun none => by omega⟩
      next => split <;> simp [*]
    rw [counted, countBits_zero]
    exact forall₂_congr fun k _ => ⟨fun clear _ => clear,
      fun clear => clear fun later => long later.1⟩

/--
`which_area` answers as it should, exactly when the words behind the first of a
long range are no exception to the rest of it.
-/
theorem whichArea_exact_iff (positive : 0 < len) :
    AreaExact bmp base len ↔ LaterWordsAgree bmp base len := by
  constructor
  · intro exact value same k later
    have below : k < len := by
      have head := headBits_lt base
      have long := later.1
      have inside := later.2.2
      omega
    cases value with
    | true => exact exact.code.mp (whichArea_code_iff.mpr same) k below
    | false => exact exact.data.mp ((whichArea_data_iff positive).mpr same) k below
  · intro agree
    have all (value : Bool) :
        (∀ k < len, ¬ LaterWord base len k → marked bmp (base + k) = value) ↔
          ∀ k < len, marked bmp (base + k) = value := by
      refine ⟨fun same k below => ?_, fun same k below _ => same k below⟩
      by_cases later : LaterWord base len k
      · exact agree value same k later
      · exact same k below later
    have code := whichArea_code_iff.trans (all true)
    have data := (whichArea_data_iff positive).trans (all false)
    refine ⟨code, data, ?_, ?_⟩
    · have invalid : whichArea bmp base len = .invalid ↔
          ¬ whichArea bmp base len = .code ∧ ¬ whichArea bmp base len = .data := by
        cases whichArea bmp base len <;> decide
      rw [invalid, code, data]
      simp only [not_forall, Bool.not_eq_true, Bool.not_eq_false, exists_prop]
    · unfold countedArea
      by_cases full : countBits bmp base len = len
      · rw [if_pos full, code]
        exact countBits_full.mp full
      rw [if_neg full]
      by_cases none : countBits bmp base len = 0
      · rw [if_pos none, data]
        exact countBits_zero.mp none
      · rw [if_neg none]
        cases area : whichArea bmp base len with
        | code => exact absurd (countBits_full.mpr (code.mp area)) full
        | data => exact absurd (countBits_zero.mpr (data.mp area)) none
        | invalid => rfl

/-- A bitmap with one word of code. -/
def oneWord : ByteMem := fun addr => if addr < 8 then 0xff else 0

/-- Two words are found to be code when only the first of them is. -/
theorem whichArea_not_exact :
    ¬ ∀ (bmp : ByteMem) (base len : Nat), 0 < len → AreaExact bmp base len := by
  intro exact
  have isCode := (exact oneWord 0 128 (by decide)).code.mp (by decide +kernel)
  exact absurd (isCode 64 (by decide)) (by decide)

/-- In the first word of that bitmap all is code. -/
theorem whichArea_exact_iff_oneWord : AreaExact oneWord 0 64 := by
  refine (whichArea_exact_iff (by decide)).mpr fun value _ k later => ?_
  have below : k < 64 := later.2.2
  have above : 64 ≤ k := later.2.1
  omega

end Counting

section Writing

/-- A call of `set_code` or `set_data`. -/
structure BitmapCall where
  asCode : Bool
  base : Nat
  len : Nat

namespace BitmapCall

variable (call : BitmapCall)

/-- The bitmap after the call. -/
def exec (bmp : ByteMem) : ByteMem :=
  if call.asCode then setCode bmp call.base call.len
  else setData bmp call.base call.len

/-- The bit is in the range of the call. -/
def Covers (k : Nat) : Prop :=
  call.base ≤ k ∧ k < call.base + call.len

instance (k : Nat) : Decidable (call.Covers k) :=
  inferInstanceAs (Decidable (_ ∧ _))

/--
The call gives the bits of its range its value and changes no other bit, inside
the bitmap or outside.
-/
def Exact (bmp : ByteMem) : Prop :=
  ∀ k, marked (call.exec bmp) k =
    if call.Covers k then call.asCode else marked bmp k

/--
The bits of the first byte of a long range that starts inside it, and those that
are written for them in the byte with index `base_align`.
-/
def Misplaced (k : Nat) : Prop :=
  16 ≤ call.len ∧ call.base % 8 ≠ 0 ∧ 8 ≤ call.base ∧
    (call.base ≤ k ∧ k < call.base / 8 * 8 + 8 ∨
      8 * (call.base / 8 * 8) + call.base % 8 ≤ k ∧
        k < 8 * (call.base / 8 * 8) + 8 ∧ ¬ call.Covers k)

/-- What the call writes in a wrong place, or not at all, has its value already. -/
def InPlace (bmp : ByteMem) : Prop :=
  ∀ k, call.Misplaced k → marked bmp k = call.asCode

end BitmapCall

/-- A call gives the bits that it writes its value, and changes no others. -/
theorem BitmapCall.marked_exec (call : BitmapCall) (bmp : ByteMem) (k : Nat) :
    marked (call.exec bmp) k =
      if Written call.base call.len k then call.asCode else marked bmp k := by
  rw [Bool.eq_iff_iff]
  unfold BitmapCall.exec
  cases call.asCode
  · rw [if_neg Bool.false_ne_true, marked_setData_iff]
    split <;> simp [*]
  · rw [if_pos rfl, marked_setCode_iff]
    split <;> simp [*]

/-- The bits that are written and the bits of the range differ in the misplaced ones. -/
theorem BitmapCall.misplaced_iff (call : BitmapCall) (k : Nat) :
    call.Misplaced k ↔ ¬ (Written call.base call.len k ↔ call.Covers k) := by
  unfold BitmapCall.Misplaced Written BitmapCall.Covers
  split <;> omega

/-- A call does what it is called for, exactly when nothing misplaced has to change. -/
theorem BitmapCall.exact_iff (call : BitmapCall) (bmp : ByteMem) :
    call.Exact bmp ↔ call.InPlace bmp := by
  refine forall_congr' fun k => ?_
  rw [call.misplaced_iff, call.marked_exec]
  by_cases written : Written call.base call.len k <;> by_cases covers : call.Covers k
  · simp [written, covers]
  · simp [written, covers, eq_comm]
  · simp [written, covers]
  · simp [written, covers]

/-- Every call of a sequence finds its misplaced bits in place. -/
def AllInPlace : ByteMem → List BitmapCall → Prop
  | _, [] => True
  | bmp, call :: rest => call.InPlace bmp ∧ AllInPlace (call.exec bmp) rest

/-- The value that the last call covering a bit has given it. -/
def lastValue (calls : List BitmapCall) (k : Nat) : Option Bool :=
  (calls.filter fun call => call.Covers k).getLast?.map BitmapCall.asCode

/-- In a sequence of calls each bit reflects the last one that covered it. -/
theorem marked_calls {calls : List BitmapCall} {bmp : ByteMem}
    (inPlace : AllInPlace bmp calls) (k : Nat) :
    marked (calls.foldl (fun bmp call => call.exec bmp) bmp) k =
      (lastValue calls k).getD (marked bmp k) := by
  induction calls generalizing bmp with
  | nil => rfl
  | cons call rest inductionHypothesis =>
      obtain ⟨first, later⟩ := inPlace
      have exact := (call.exact_iff bmp).mpr first k
      rw [List.foldl_cons, inductionHypothesis later, exact]
      unfold lastValue
      by_cases covers : call.Covers k
      · rw [List.filter_cons_of_pos (by simpa using covers), List.getLast?_cons, if_pos covers]
        cases (rest.filter fun call => call.Covers k).getLast? <;> rfl
      · rw [List.filter_cons_of_neg (by simpa using covers), if_neg covers]

/--
`set_code` and `set_data` write exactly their range, whenever nothing misplaced has
to change; and in a sequence of such calls each bit reflects the last one that
covered it.
-/
theorem bitmapCalls_exact (bmp : ByteMem) (calls : List BitmapCall) :
    (∀ call : BitmapCall, call.Exact bmp ↔ call.InPlace bmp) ∧
      (AllInPlace bmp calls → ∀ k,
        marked (calls.foldl (fun bmp call => call.exec bmp) bmp) k =
          (lastValue calls k).getD (marked bmp k)) :=
  ⟨fun call => call.exact_iff bmp, marked_calls⟩

/-- Code that starts in the middle of a byte is marked elsewhere. -/
theorem bitmapCalls_not_exact :
    ¬ ∀ (call : BitmapCall) (bmp : ByteMem), call.Exact bmp := by
  intro exact
  have lost := exact ⟨true, 12, 16⟩ (fun _ => 0) 12
  exact absurd lost (by decide +kernel)

/-- Code is written over data from an aligned base on, and data over a part of it. -/
theorem bitmapCalls_exact_aligned :
    marked ([BitmapCall.mk true 16 24, ⟨false, 32, 3⟩].foldl
        (fun bmp call => call.exec bmp) fun _ => 0) 33 =
      (lastValue [⟨true, 16, 24⟩, ⟨false, 32, 3⟩] 33).getD false := by
  refine (bitmapCalls_exact (fun _ => 0) [⟨true, 16, 24⟩, ⟨false, 32, 3⟩]).2
    ⟨?_, ?_, trivial⟩ 33
  · exact fun k misplaced => absurd rfl misplaced.2.1
  · exact fun k misplaced => absurd rfl misplaced.2.1

end Writing

end Mcfi
