import Mathlib.Data.Nat.Basic
import Mathlib.Tactic.Common

/-!
# Memories with holes

A memory gives the byte at every address that is mapped.  Ranges are mapped with
zeros and unmapped; a copy needs its whole range mapped, and a read gives the bytes
of a range that is.
-/

/-- The byte at every mapped address. -/
abbrev MappedMem := Nat → Option UInt8

namespace MappedMem

/-- Map a range, with zeros. -/
def mapZero (mem : MappedMem) (start size : Nat) : MappedMem :=
  fun query => if start ≤ query ∧ query < start + size then some 0 else mem query

/-- Unmap a range. -/
def unmap (mem : MappedMem) (start size : Nat) : MappedMem :=
  fun query => if start ≤ query ∧ query < start + size then none else mem query

/-- Put bytes at a range. -/
def put (mem : MappedMem) (start : Nat) (bytes : List UInt8) : MappedMem :=
  fun query =>
    if start ≤ query ∧ query < start + bytes.length then bytes[query - start]?
    else mem query

/-- The bytes of a range, if all of it is mapped. -/
def read (mem : MappedMem) (start : Nat) : Nat → Option (List UInt8)
  | 0 => some []
  | size + 1 =>
      match mem start, read mem (start + 1) size with
      | some byte, some bytes => some (byte :: bytes)
      | _, _ => none

variable {mem : MappedMem} {start size query : Nat} {bytes : List UInt8}

theorem mapZero_inside (low : start ≤ query) (high : query < start + size) :
    mem.mapZero start size query = some 0 :=
  if_pos ⟨low, high⟩

theorem mapZero_outside (outside : query < start ∨ start + size ≤ query) :
    mem.mapZero start size query = mem query :=
  if_neg (by omega)

theorem unmap_outside (outside : query < start ∨ start + size ≤ query) :
    mem.unmap start size query = mem query :=
  if_neg (by omega)

theorem put_inside (low : start ≤ query) (high : query < start + bytes.length) :
    mem.put start bytes query = bytes[query - start]? :=
  if_pos ⟨low, high⟩

theorem put_outside (outside : query < start ∨ start + bytes.length ≤ query) :
    mem.put start bytes query = mem query :=
  if_neg (by omega)

/-- A range that is read is mapped, and its bytes are those of the memory. -/
theorem read_eq_some (taken : mem.read start size = some bytes) :
    bytes.length = size ∧
      ∀ offset, offset < size → mem (start + offset) = bytes[offset]? := by
  induction size generalizing start bytes with
  | zero =>
      cases taken
      exact ⟨rfl, fun _ never => absurd never (Nat.not_lt_zero _)⟩
  | succ size inductionHypothesis =>
      rw [read] at taken
      split at taken
      next byte rest here later =>
        cases taken
        obtain ⟨length, same⟩ := inductionHypothesis later
        refine ⟨congrArg Nat.succ length, fun offset below => ?_⟩
        cases offset with
        | zero => exact here
        | succ offset =>
            rw [List.getElem?_cons_succ, ← same offset (Nat.lt_of_succ_lt_succ below),
              Nat.add_right_comm, Nat.add_assoc]
      next => cases taken

/-- A mapped range can be read. -/
theorem exists_read
    (mapped : ∀ offset, offset < size → (mem (start + offset)).isSome) :
    ∃ bytes, mem.read start size = some bytes := by
  induction size generalizing start with
  | zero => exact ⟨[], rfl⟩
  | succ size inductionHypothesis =>
      obtain ⟨byte, here⟩ := Option.isSome_iff_exists.mp (mapped 0 (Nat.succ_pos size))
      obtain ⟨bytes, later⟩ := @inductionHypothesis (start + 1) fun offset below => by
        have shifted := mapped (offset + 1) (Nat.succ_lt_succ below)
        rwa [Nat.add_right_comm, Nat.add_assoc]
      rw [Nat.add_zero] at here
      exact ⟨byte :: bytes, by rw [read, here, later]⟩

/-- Mapping a range anew and putting back what was read there changes nothing. -/
theorem put_back (taken : mem.read start size = some bytes) :
    ((mem.unmap start size).mapZero start size).put start bytes = mem := by
  obtain ⟨length, same⟩ := read_eq_some taken
  funext query
  by_cases inside : start ≤ query ∧ query < start + size
  · rw [put_inside inside.1 (by rw [length]; exact inside.2)]
    have there := same (query - start) (by omega)
    rw [Nat.add_sub_cancel' inside.1] at there
    exact there.symm
  · rw [put_outside (by rw [length]; omega), mapZero_outside (by omega),
      unmap_outside (by omega)]

end MappedMem
