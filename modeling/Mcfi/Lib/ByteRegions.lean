import Mcfi.Lib.ByteMem

namespace ByteMem

/-!
# Regions of a byte memory

What lies from an address on: a list of bytes, a list of 64-bit words, or zeros.
A block that is filled from two places, words from its start and bytes from an
offset on, keeps both lists as long as neither runs into the other.
-/

/-- These bytes lie from an address on. -/
def BytesAt (mem : ByteMem) (addr : Nat) (bytes : List UInt8) : Prop :=
  ∀ k byte, bytes[k]? = some byte → mem (addr + k) = byte

/-- These words lie from an address on. -/
def WordsAt (mem : ByteMem) (addr : Nat) (words : List Nat) : Prop :=
  ∀ k word, words[k]? = some word → load64 mem (addr + 8 * k) = word

/-- A range holds zeros only. -/
def ZeroIn (mem : ByteMem) (low high : Nat) : Prop :=
  ∀ query, low ≤ query → query < high → mem query = 0

/-- The bytes of a number in little-endian order. -/
def littleEndian (width value : Nat) : List UInt8 :=
  (List.range width).map fun k => UInt8.ofNat (value / 256 ^ k)

@[simp] theorem length_littleEndian (width value : Nat) :
    (littleEndian width value).length = width := by
  rw [littleEndian, List.length_map, List.length_range]

section Bytes

variable {mem : ByteMem} {addr : Nat}

theorem bytesAt_append {front back : List UInt8} :
    BytesAt mem addr (front ++ back) ↔
      BytesAt mem addr front ∧ BytesAt mem (addr + front.length) back := by
  constructor
  · intro whole
    constructor
    · intro k byte found
      have inside := (List.getElem?_eq_some_iff.mp found).1
      apply whole
      rw [List.getElem?_append_left inside, found]
    · intro k byte found
      rw [Nat.add_assoc]
      apply whole
      rw [List.getElem?_append_right (Nat.le_add_right _ _), Nat.add_sub_cancel_left, found]
  · rintro ⟨first, second⟩ k byte found
    rcases Nat.lt_or_ge k front.length with inside | behind
    · rw [List.getElem?_append_left inside] at found
      exact first k byte found
    · rw [List.getElem?_append_right behind] at found
      have read := second _ _ found
      rwa [Nat.add_assoc, Nat.add_sub_cancel' behind] at read

theorem bytesAt_cons {byte : UInt8} {rest : List UInt8} :
    BytesAt mem addr (byte :: rest) ↔
      mem addr = byte ∧ BytesAt mem (addr + 1) rest := by
  rw [← List.singleton_append, bytesAt_append]
  apply and_congr_left
  intro _
  constructor
  · intro single
    exact single 0 byte rfl
  · intro read k other found
    cases k with
    | zero => simpa [read] using found
    | succ k => simp at found

/-- Bytes are where they were in a memory that agrees there. -/
theorem BytesAt.congr {other : ByteMem} {bytes : List UInt8}
    (present : BytesAt mem addr bytes)
    (same : ∀ query, addr ≤ query → query < addr + bytes.length →
      other query = mem query) :
    BytesAt other addr bytes := by
  intro k byte found
  have inside := (List.getElem?_eq_some_iff.mp found).1
  rw [same _ (Nat.le_add_right _ _) (by omega)]
  exact present k byte found

theorem bytesAt_storeBytes (mem : ByteMem) (addr : Nat) (bytes : List UInt8) :
    BytesAt (storeBytes mem addr bytes) addr bytes := by
  intro k byte found
  have inside := (List.getElem?_eq_some_iff.mp found).1
  have stored : some (storeBytes mem addr bytes (addr + k)) = bytes[addr + k - addr]? :=
    storeBytes_inside mem (Nat.le_add_right _ _) (by omega)
  rw [Nat.add_sub_cancel_left, found, Option.some.injEq] at stored
  exact stored

/-- A text that ends at the first zero is determined by where it starts. -/
theorem BytesAt.unique {first second : List UInt8}
    (firstText : 0 ∉ first) (secondText : 0 ∉ second)
    (firstAt : BytesAt mem addr (first ++ [0]))
    (secondAt : BytesAt mem addr (second ++ [0])) :
    first = second := by
  induction first generalizing second addr with
  | nil =>
      cases second with
      | nil => rfl
      | cons byte rest =>
          have ends := (bytesAt_cons.mp firstAt).1
          have starts := (bytesAt_cons.mp secondAt).1
          rw [ends] at starts
          exact absurd (starts ▸ List.mem_cons_self) secondText
  | cons byte rest inductionHypothesis =>
      obtain ⟨read, behind⟩ := bytesAt_cons.mp firstAt
      cases second with
      | nil =>
          have ends := (bytesAt_cons.mp secondAt).1
          rw [read] at ends
          exact absurd (ends ▸ List.mem_cons_self) firstText
      | cons other others =>
          obtain ⟨otherRead, otherBehind⟩ := bytesAt_cons.mp secondAt
          have tails := inductionHypothesis
            (fun inside => firstText (List.mem_cons_of_mem _ inside))
            (fun inside => secondText (List.mem_cons_of_mem _ inside))
            behind otherBehind
          rw [← read, ← otherRead, tails]

end Bytes

section Words

variable {mem : ByteMem} {addr : Nat}

theorem wordsAt_append {front back : List Nat} :
    WordsAt mem addr (front ++ back) ↔
      WordsAt mem addr front ∧ WordsAt mem (addr + 8 * front.length) back := by
  constructor
  · intro whole
    constructor
    · intro k word found
      have inside := (List.getElem?_eq_some_iff.mp found).1
      apply whole
      rw [List.getElem?_append_left inside, found]
    · intro k word found
      rw [Nat.add_assoc, ← Nat.mul_add]
      apply whole
      rw [List.getElem?_append_right (Nat.le_add_right _ _), Nat.add_sub_cancel_left, found]
  · rintro ⟨first, second⟩ k word found
    rcases Nat.lt_or_ge k front.length with inside | behind
    · rw [List.getElem?_append_left inside] at found
      exact first k word found
    · rw [List.getElem?_append_right behind] at found
      have read := second _ _ found
      rwa [Nat.add_assoc, ← Nat.mul_add, Nat.add_sub_cancel' behind] at read

theorem wordsAt_singleton {word : Nat} :
    WordsAt mem addr [word] ↔ load64 mem addr = word := by
  constructor
  · intro single
    exact single 0 word rfl
  · intro read k other found
    cases k with
    | zero => simpa [read] using found
    | succ k => simp at found

theorem wordsAt_cons {word : Nat} {rest : List Nat} :
    WordsAt mem addr (word :: rest) ↔
      load64 mem addr = word ∧ WordsAt mem (addr + 8) rest := by
  rw [← List.singleton_append, wordsAt_append, wordsAt_singleton]
  rfl

/-- Words are where they were in a memory that agrees there. -/
theorem WordsAt.congr {other : ByteMem} {words : List Nat}
    (present : WordsAt mem addr words)
    (same : ∀ query, addr ≤ query → query < addr + 8 * words.length →
      other query = mem query) :
    WordsAt other addr words := by
  intro k word found
  have inside := (List.getElem?_eq_some_iff.mp found).1
  have read := present k word found
  rw [← read]
  apply load_congr
  intro offset below
  exact same _ (by omega) (by omega)

end Words

/-- A range of zeros reads as the zero word. -/
theorem ZeroIn.load64_eq {mem : ByteMem} {low high addr : Nat}
    (zeros : ZeroIn mem low high) (above : low ≤ addr) (below : addr + 8 ≤ high) :
    load64 mem addr = 0 := by
  apply load_eq_of_bytes (Nat.pow_pos (by decide))
  intro k inside
  rw [zeros _ (by omega) (by omega), Nat.zero_div]
  rfl

/-- The bytes of a stored word are read as the word. -/
theorem BytesAt.load64_eq {mem : ByteMem} {addr value : Nat}
    (small : value < 2 ^ 64) (present : BytesAt mem addr (littleEndian 8 value)) :
    load64 mem addr = value := by
  apply load_eq_of_bytes small
  intro k below
  have read := present k (UInt8.ofNat (value / 256 ^ k)) (by
    rw [littleEndian, List.getElem?_map, List.getElem?_range below, Option.map_some])
  rw [read]
  exact UInt8.toNat_ofNat'

/-- A stored word is the write of its bytes. -/
theorem store64_eq_storeBytes (mem : ByteMem) (addr value : Nat) :
    store64 mem addr value = storeBytes mem addr (littleEndian 8 value) := by
  have length := length_littleEndian 8 value
  funext query
  by_cases inside : addr ≤ query ∧ query < addr + 8
  · have stored : some (storeBytes mem addr (littleEndian 8 value) query) =
        (littleEndian 8 value)[query - addr]? :=
      storeBytes_inside mem inside.1 (by rw [length]; exact inside.2)
    rw [littleEndian, List.getElem?_map, List.getElem?_range (by omega), Option.map_some,
      Option.some.injEq] at stored
    rw [littleEndian, stored]
    exact if_pos inside
  · rw [storeBytes_outside mem (by rw [length]; omega)]
    exact if_neg inside

/--
A block that is being filled: words from its start, bytes from an offset on, and
zeros elsewhere.  Outside the block the memory is the original one.
-/
structure Filling (original mem : ByteMem) (start split size : Nat)
    (words : List Nat) (bytes : List UInt8) : Prop where
  wordsFit : 8 * words.length ≤ split
  bytesFit : split + bytes.length ≤ size
  placedWords : WordsAt mem start words
  placedBytes : BytesAt mem (start + split) bytes
  wordGap : ZeroIn mem (start + 8 * words.length) (start + split)
  byteGap : ZeroIn mem (start + split + bytes.length) (start + size)
  outside : ∀ query, query < start ∨ start + size ≤ query → mem query = original query

namespace Filling

variable {original mem : ByteMem} {start split size : Nat}
  {words : List Nat} {bytes : List UInt8}

/-- A block of zeros is not filled yet. -/
theorem fresh (original : ByteMem) (start : Nat) {split size : Nat} (fits : split ≤ size) :
    Filling original (original.fill start size 0) start split size [] [] where
  wordsFit := Nat.zero_le _
  bytesFit := fits
  placedWords := fun _ _ found => nomatch found
  placedBytes := fun _ _ found => nomatch found
  wordGap := by
    intro query above below
    exact fill_inside original 0 ⟨above, by omega⟩
  byteGap := by
    intro query above below
    rw [List.length_nil] at above
    exact fill_inside original 0 ⟨by omega, below⟩
  outside := fun _ away => fill_outside original 0 away

/-- The next word goes behind the words. -/
theorem appendWord {word : Nat}
    (filling : Filling original mem start split size words bytes)
    (small : word < 2 ^ 64) (room : 8 * (words.length + 1) ≤ split) :
    Filling original (mem.store64 (start + 8 * words.length) word) start split size
      (words ++ [word]) bytes := by
  have byteRoom := filling.bytesFit
  have length : (words ++ [word]).length = words.length + 1 := by
    rw [List.length_append, List.length_singleton]
  refine ⟨by rw [length]; exact room, byteRoom, ?placedWords, ?placedBytes, ?wordGap, ?byteGap, ?outside⟩
  case placedWords =>
    rw [wordsAt_append, wordsAt_singleton]
    refine ⟨filling.placedWords.congr ?_, load64_store64_same mem _ small⟩
    intro query _ below
    exact store64_other mem (Or.inl below)
  case placedBytes =>
    apply filling.placedBytes.congr
    intro query above _
    exact store64_other mem (Or.inr (by omega))
  case wordGap =>
    intro query above below
    rw [length] at above
    rw [store64_other mem (Or.inr (by omega))]
    exact filling.wordGap query (by omega) below
  case byteGap =>
    intro query above below
    rw [store64_other mem (Or.inr (by omega))]
    exact filling.byteGap query above below
  case outside =>
    intro query away
    rw [store64_other mem (by omega)]
    exact filling.outside query away

/-- The next bytes go behind the bytes. -/
theorem appendBytes
    (filling : Filling original mem start split size words bytes)
    (more : List UInt8) (room : split + bytes.length + more.length ≤ size) :
    Filling original (mem.storeBytes (start + split + bytes.length) more) start split size
      words (bytes ++ more) := by
  have wordRoom := filling.wordsFit
  refine ⟨wordRoom, ?bytesFit, ?placedWords, ?placedBytes, ?wordGap, ?byteGap, ?outside⟩
  case bytesFit =>
    rw [List.length_append]
    omega
  case placedWords =>
    apply filling.placedWords.congr
    intro query _ below
    exact storeBytes_outside mem (Or.inl (by omega))
  case placedBytes =>
    rw [bytesAt_append]
    refine ⟨filling.placedBytes.congr ?_, bytesAt_storeBytes mem _ more⟩
    intro query _ below
    exact storeBytes_outside mem (Or.inl below)
  case wordGap =>
    intro query above below
    rw [storeBytes_outside mem (Or.inl (by omega))]
    exact filling.wordGap query above below
  case byteGap =>
    intro query above below
    rw [List.length_append] at above
    rw [storeBytes_outside mem (Or.inr (by omega))]
    exact filling.byteGap query (by omega) below
  case outside =>
    intro query away
    rw [storeBytes_outside mem (by omega)]
    exact filling.outside query away

/-- A byte that is left out is zero. -/
theorem skipByte
    (filling : Filling original mem start split size words bytes)
    (room : split + bytes.length + 1 ≤ size) :
    Filling original mem start split size words (bytes ++ [0]) := by
  have zero : mem (start + split + bytes.length) = 0 :=
    filling.byteGap _ (Nat.le_refl _) (by omega)
  refine { filling with bytesFit := ?bytesFit, placedBytes := ?placedBytes, byteGap := ?byteGap }
  case bytesFit =>
    rw [List.length_append, List.length_singleton]
    exact room
  case placedBytes =>
    rw [bytesAt_append, bytesAt_cons]
    exact ⟨filling.placedBytes, zero, fun _ _ found => nomatch found⟩
  case byteGap =>
    intro query above below
    rw [List.length_append] at above
    exact filling.byteGap query (by omega) below

/-- The word behind the words is zero. -/
theorem next_word_zero
    (filling : Filling original mem start split size words bytes)
    (room : 8 * (words.length + 1) ≤ split) :
    load64 mem (start + 8 * words.length) = 0 :=
  filling.wordGap.load64_eq (Nat.le_refl _) (by omega)

end Filling

end ByteMem
