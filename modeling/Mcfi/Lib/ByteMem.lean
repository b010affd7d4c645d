import Mathlib.Data.Nat.Basic
import Mathlib.Tactic.Common
import Mathlib.Tactic.Ring

/-!
# Byte memories with little-endian words

A memory is a total function from addresses to bytes.  Words are read and
written in little-endian order.  The frame lemmas say which bytes and which
words a store leaves alone.
-/

/-- A byte for every address. -/
abbrev ByteMem := Nat → UInt8

namespace ByteMem

/-- The little-endian number in `width` bytes from an address on. -/
def load (mem : ByteMem) (addr : Nat) : Nat → Nat
  | 0 => 0
  | width + 1 => (mem addr).toNat + 256 * load mem (addr + 1) width

/-- Write `width` bytes of a number in little-endian order. -/
def store (mem : ByteMem) (addr width value : Nat) : ByteMem :=
  fun query =>
    if addr ≤ query ∧ query < addr + width then
      UInt8.ofNat (value / 256 ^ (query - addr))
    else
      mem query

/-- Write one byte. -/
def storeByte (mem : ByteMem) (addr : Nat) (byte : UInt8) : ByteMem :=
  fun query => if query = addr then byte else mem query

/-- Write one byte to each address of a range. -/
def fill (mem : ByteMem) (addr length : Nat) (byte : UInt8) : ByteMem :=
  fun query =>
    if addr ≤ query ∧ query < addr + length then byte else mem query

/-- Write a list of bytes to consecutive addresses. -/
def storeBytes (mem : ByteMem) (addr : Nat) (bytes : List UInt8) : ByteMem :=
  fun query =>
    if addr ≤ query then bytes.getD (query - addr) (mem query) else mem query

/-- Read a 64-bit word. -/
def load64 (mem : ByteMem) (addr : Nat) : Nat :=
  load mem addr 8

/-- Write a 64-bit word. -/
def store64 (mem : ByteMem) (addr value : Nat) : ByteMem :=
  store mem addr 8 value

theorem load_lt (mem : ByteMem) (addr width : Nat) :
    load mem addr width < 256 ^ width := by
  induction width generalizing addr with
  | zero =>
      simp [load]
  | succ width inductionHypothesis =>
      have byteBelow := (mem addr).toNat_lt
      have restBelow := inductionHypothesis (addr + 1)
      rw [load, Nat.pow_succ]
      omega

/-- A word is its low part and what is behind it. -/
theorem load_add (mem : ByteMem) (addr first second : Nat) :
    load mem addr (first + second) =
      load mem addr first + 256 ^ first * load mem (addr + first) second := by
  induction first generalizing addr with
  | zero => rw [Nat.zero_add, load, Nat.pow_zero, Nat.zero_add, Nat.one_mul, Nat.add_zero]
  | succ first inductionHypothesis =>
      rw [Nat.succ_add, load, inductionHypothesis, load, Nat.pow_succ,
        Nat.add_right_comm addr 1 first, Nat.add_assoc addr first 1]
      ring

/-- A number is read back when each byte is the number's byte. -/
theorem load_eq_of_bytes
    {mem : ByteMem} {addr width value : Nat}
    (small : value < 256 ^ width)
    (bytes : ∀ k, k < width →
      (mem (addr + k)).toNat = value / 256 ^ k % 256) :
    load mem addr width = value := by
  induction width generalizing addr value with
  | zero =>
      simp only [Nat.pow_zero] at small
      simp only [load]
      omega
  | succ width inductionHypothesis =>
      have first := bytes 0 (by omega)
      have rest :
          load mem (addr + 1) width = value / 256 := by
        apply inductionHypothesis
        · rw [Nat.pow_succ] at small
          omega
        · intro k below
          have later := bytes (k + 1) (by omega)
          rw [show addr + 1 + k = addr + (k + 1) by omega, later,
            Nat.div_div_eq_div_mul, Nat.pow_succ, Nat.mul_comm 256]
      rw [load, rest]
      simp only [Nat.pow_zero, Nat.div_one, Nat.add_zero] at first
      omega

/-- Equal bytes at two places make equal words. -/
theorem load_congr_offset
    {first second : ByteMem} {left right width : Nat}
    (same : ∀ k, k < width → first (left + k) = second (right + k)) :
    load first left width = load second right width := by
  induction width generalizing left right with
  | zero =>
      rfl
  | succ width inductionHypothesis =>
      have head : first left = second right := same 0 (by omega)
      have tail : load first (left + 1) width =
          load second (right + 1) width := by
        apply inductionHypothesis
        intro k below
        have later := same (k + 1) (by omega)
        rwa [show left + 1 + k = left + (k + 1) by omega,
          show right + 1 + k = right + (k + 1) by omega]
      rw [load, load, tail, head]

/-- Reading depends on the bytes of the word only. -/
theorem load_congr
    {first second : ByteMem} {addr width : Nat}
    (same : ∀ k, k < width → first (addr + k) = second (addr + k)) :
    load first addr width = load second addr width :=
  load_congr_offset same

/-- The byte at an offset is the word's byte at that offset. -/
theorem byte_eq_load
    (mem : ByteMem) (addr width : Nat) {k : Nat} (below : k < width) :
    (mem (addr + k)).toNat = load mem addr width / 256 ^ k % 256 := by
  induction width generalizing addr k with
  | zero =>
      omega
  | succ width inductionHypothesis =>
      have byteBelow := (mem addr).toNat_lt
      cases k with
      | zero =>
          simp only [load, Nat.pow_zero, Nat.div_one, Nat.add_zero]
          omega
      | succ k =>
          have later := inductionHypothesis (addr + 1) (k := k) (by omega)
          have strip :
              ((mem addr).toNat + 256 * load mem (addr + 1) width) / 256 =
                load mem (addr + 1) width := by
            omega
          rw [load, Nat.pow_succ', ← Nat.div_div_eq_div_mul, strip, ← later,
            show addr + 1 + k = addr + (k + 1) by omega]

theorem store_byte
    (mem : ByteMem) (addr width value : Nat) {k : Nat} (below : k < width) :
    (store mem addr width value (addr + k)).toNat = value / 256 ^ k % 256 := by
  have inside : addr ≤ addr + k ∧ addr + k < addr + width := by omega
  simp [store, inside]

/-- A stored word is read back. -/
theorem load_store_same
    (mem : ByteMem) (addr : Nat) {width value : Nat}
    (small : value < 256 ^ width) :
    load (store mem addr width value) addr width = value :=
  load_eq_of_bytes small fun _ below => store_byte mem addr width value below

/-- A store changes no byte outside its range. -/
theorem store_other
    (mem : ByteMem) {addr width value query : Nat}
    (outside : query < addr ∨ addr + width ≤ query) :
    store mem addr width value query = mem query := by
  have notInside : ¬ (addr ≤ query ∧ query < addr + width) := by omega
  simp [store, notInside]

theorem store_zero (mem : ByteMem) (addr value : Nat) : store mem addr 0 value = mem := by
  funext query
  exact store_other mem (Nat.lt_or_ge query addr)

/-- A store writes its last byte last. -/
theorem store_succ (mem : ByteMem) (addr width value : Nat) :
    store mem addr (width + 1) value =
      storeByte (store mem addr width value) (addr + width)
        (UInt8.ofNat (value / 256 ^ width)) := by
  funext query
  unfold storeByte
  split
  next last =>
    subst last
    rw [store, if_pos ⟨Nat.le_add_right _ _, Nat.lt_succ_self _⟩, Nat.add_sub_cancel_left]
  next other =>
    by_cases inside : addr ≤ query ∧ query < addr + width
    · rw [store, store, if_pos inside, if_pos ⟨inside.1, Nat.lt_succ_of_lt inside.2⟩]
    · rw [store, store, if_neg inside, if_neg (by omega)]

/-- A store changes no word that it does not overlap. -/
theorem load_store_disjoint
    (mem : ByteMem) {addr width value other otherWidth : Nat}
    (disjoint : other + otherWidth ≤ addr ∨ addr + width ≤ other) :
    load (store mem addr width value) other otherWidth =
      load mem other otherWidth := by
  apply load_congr
  intro k below
  exact store_other mem (by omega)

/-- What a write of several bytes leaves at an address of its range. -/
theorem storeBytes_inside
    (mem : ByteMem) {addr query : Nat} {bytes : List UInt8}
    (above : addr ≤ query) (below : query < addr + bytes.length) :
    some (storeBytes mem addr bytes query) = bytes[query - addr]? := by
  have inside : query - addr < bytes.length := by omega
  rw [storeBytes, if_pos above, List.getD_eq_getElem?_getD,
    List.getElem?_eq_getElem inside, Option.getD_some]

/-- A write of several bytes keeps every other byte. -/
theorem storeBytes_outside
    (mem : ByteMem) {addr query : Nat} {bytes : List UInt8}
    (outside : query < addr ∨ addr + bytes.length ≤ query) :
    storeBytes mem addr bytes query = mem query := by
  unfold storeBytes
  split
  next above =>
    rw [List.getD_eq_getElem?_getD, List.getElem?_eq_none (by omega)]
    rfl
  next => rfl

theorem storeBytes_nil (mem : ByteMem) (addr : Nat) : storeBytes mem addr [] = mem := by
  funext query
  exact storeBytes_outside mem (Nat.lt_or_ge query addr)

/-- A write of two pieces is a write of the one and then of the other. -/
theorem storeBytes_append (mem : ByteMem) (addr : Nat) (front back : List UInt8) :
    storeBytes mem addr (front ++ back) =
      storeBytes (storeBytes mem addr front) (addr + front.length) back := by
  funext query
  simp only [storeBytes, List.getD_eq_getElem?_getD, List.getElem?_append]
  by_cases inFront : query - addr < front.length <;> grind

/-- Writing a part of what was just written changes nothing. -/
theorem storeBytes_again (mem : ByteMem) (addr k : Nat) (bytes : List UInt8) :
    storeBytes (storeBytes mem addr bytes) addr (bytes.take k) =
      storeBytes mem addr bytes := by
  funext query
  simp only [storeBytes, List.getD_eq_getElem?_getD, List.getElem?_take]
  grind

/-- Writes to disjoint ranges commute. -/
theorem storeBytes_comm (mem : ByteMem) {addr other : Nat} {bytes otherBytes : List UInt8}
    (apart : addr + bytes.length ≤ other ∨ other + otherBytes.length ≤ addr) :
    storeBytes (storeBytes mem addr bytes) other otherBytes =
      storeBytes (storeBytes mem other otherBytes) addr bytes := by
  funext query
  simp only [storeBytes, List.getD_eq_getElem?_getD]
  grind

/-- The same write to two memories leaves them equal where they were. -/
theorem storeBytes_congr
    {first second : ByteMem} {query : Nat} (addr : Nat) (bytes : List UInt8)
    (same : first query = second query) :
    storeBytes first addr bytes query = storeBytes second addr bytes query := by
  simp only [storeBytes, same]

theorem fill_inside
    (mem : ByteMem) {addr length query : Nat} (byte : UInt8)
    (inside : addr ≤ query ∧ query < addr + length) :
    fill mem addr length byte query = byte := by
  simp [fill, inside]

theorem fill_outside
    (mem : ByteMem) {addr length query : Nat} (byte : UInt8)
    (outside : query < addr ∨ addr + length ≤ query) :
    fill mem addr length byte query = mem query := by
  have notInside : ¬ (addr ≤ query ∧ query < addr + length) := by omega
  simp [fill, notInside]

section Words

variable (mem : ByteMem)

theorem load64_lt (addr : Nat) : load64 mem addr < 2 ^ 64 :=
  load_lt mem addr 8

/-- Fresh memory holds zero words. -/
theorem load64_zero (addr : Nat) : load64 (fun _ => 0) addr = 0 := by
  simp [load64, load]

/-- The lowest byte of a word is the byte at its address. -/
theorem load64_mod (addr : Nat) :
    load64 mem addr % 256 = (mem addr).toNat := by
  have byte := byte_eq_load mem addr 8 (k := 0) (by decide)
  rw [Nat.pow_zero, Nat.div_one] at byte
  exact byte.symm

@[simp] theorem load64_store64_same
    (addr : Nat) {value : Nat} (small : value < 2 ^ 64) :
    load64 (store64 mem addr value) addr = value :=
  load_store_same mem addr small

theorem load64_store64_disjoint
    {addr value other : Nat}
    (disjoint : other + 8 ≤ addr ∨ addr + 8 ≤ other) :
    load64 (store64 mem addr value) other = load64 mem other :=
  load_store_disjoint mem disjoint

/-- Two aligned words at different addresses do not overlap. -/
theorem load64_store64_aligned
    {addr value other : Nat}
    (aligned : addr % 8 = 0) (otherAligned : other % 8 = 0)
    (different : other ≠ addr) :
    load64 (store64 mem addr value) other = load64 mem other :=
  load64_store64_disjoint mem (by omega)

theorem store64_other
    {addr value query : Nat} (outside : query < addr ∨ addr + 8 ≤ query) :
    store64 mem addr value query = mem query :=
  store_other mem outside

/-- Each byte of a stored word. -/
theorem store64_byte
    (addr value : Nat) {k : Nat} (below : k < 8) :
    (store64 mem addr value (addr + k)).toNat = value / 256 ^ k % 256 :=
  store_byte mem addr 8 value below

end Words

end ByteMem
