import Mathlib.Tactic.Common

/-!
# Address spaces over shared memory objects

An address space says, for each mapped address, which byte of which object lies
there and what may be done with it.  Address spaces share no state but the objects:
what is stored through one mapping of an object is read through all others, and an
object that no other address space maps is private to its own.
-/

/-- The contents of the memory objects. -/
abbrev Objects := Nat → Nat → UInt8

/-- The byte of an object that lies at an address, with the rights of its mapping. -/
structure MappedByte (ρ : Type) where
  object : Nat
  offset : Nat
  rights : ρ
  deriving DecidableEq

/-- An address space. -/
abbrev SharedMap (ρ : Type) := Nat → Option (MappedByte ρ)

namespace SharedMap

variable {ρ : Type}

/-- Map an object at a range, in place of what lay there. -/
def mapObject (maps : SharedMap ρ) (start size object : Nat) (rights : ρ) :
    SharedMap ρ := fun addr =>
  if start ≤ addr ∧ addr < start + size then some ⟨object, addr - start, rights⟩
  else maps addr

/-- Unmap a range. -/
def unmap (maps : SharedMap ρ) (start size : Nat) : SharedMap ρ := fun addr =>
  if start ≤ addr ∧ addr < start + size then none else maps addr

/-- Load the byte at an address, if it is mapped with the right to. -/
def loadByte (allows : ρ → Bool) (objects : Objects) (maps : SharedMap ρ)
    (addr : Nat) : Option UInt8 :=
  match maps addr with
  | none => none
  | some byte =>
      if allows byte.rights then some (objects byte.object byte.offset) else none

/-- Load the bytes of a range. -/
def load (allows : ρ → Bool) (objects : Objects) (maps : SharedMap ρ) :
    Nat → Nat → Option (List UInt8)
  | _, 0 => some []
  | start, size + 1 =>
      match loadByte allows objects maps start,
        load allows objects maps (start + 1) size with
      | some byte, some bytes => some (byte :: bytes)
      | _, _ => none

/-- Store a byte at an address, if it is mapped with the right to. -/
def storeByte (allows : ρ → Bool) (objects : Objects) (maps : SharedMap ρ)
    (addr : Nat) (stored : UInt8) : Option Objects :=
  match maps addr with
  | none => none
  | some byte =>
      if allows byte.rights then
        some fun object offset =>
          if object = byte.object ∧ offset = byte.offset then stored
          else objects object offset
      else none

/-- Store the bytes of a range. -/
def store (allows : ρ → Bool) (maps : SharedMap ρ) :
    Objects → Nat → List UInt8 → Option Objects
  | objects, _, [] => some objects
  | objects, start, byte :: bytes =>
      match storeByte allows objects maps start byte with
      | none => none
      | some next => store allows maps next (start + 1) bytes

section Ranges

variable {maps : SharedMap ρ} {start size object addr : Nat} {rights : ρ}

/-- A mapped range shows the object from its start. -/
theorem mapObject_inside {offset : Nat} (inside : offset < size) :
    maps.mapObject start size object rights (start + offset) =
      some ⟨object, offset, rights⟩ := by
  rw [mapObject, if_pos ⟨Nat.le_add_right _ _, Nat.add_lt_add_left inside _⟩,
    Nat.add_sub_cancel_left]

/-- A mapping leaves the addresses outside its range. -/
theorem mapObject_outside (outside : ¬ (start ≤ addr ∧ addr < start + size)) :
    maps.mapObject start size object rights addr = maps addr :=
  if_neg outside

/-- What is mapped after a mapping was, or is of the object. -/
theorem mapObject_cases {byte : MappedByte ρ}
    (mapped : maps.mapObject start size object rights addr = some byte) :
    (start ≤ addr ∧ addr < start + size ∧ byte.object = object) ∨
      maps addr = some byte := by
  unfold mapObject at mapped
  split at mapped
  next inside =>
    cases mapped
    exact Or.inl ⟨inside.1, inside.2, rfl⟩
  next => exact Or.inr mapped

/-- Nothing is left in an unmapped range. -/
theorem unmap_inside (low : start ≤ addr) (high : addr < start + size) :
    maps.unmap start size addr = none :=
  if_pos ⟨low, high⟩

/-- Unmapping leaves the addresses outside its range. -/
theorem unmap_outside (outside : ¬ (start ≤ addr ∧ addr < start + size)) :
    maps.unmap start size addr = maps addr :=
  if_neg outside

/-- What is mapped after unmapping was mapped. -/
theorem unmap_mapped {byte : MappedByte ρ}
    (mapped : maps.unmap start size addr = some byte) : maps addr = some byte := by
  unfold unmap at mapped
  split at mapped
  next => cases mapped
  next => exact mapped

end Ranges

section Contents

variable {allows : ρ → Bool} {maps : SharedMap ρ} {object : Nat} {rights : ρ}

/-- A byte that may be loaded is that of the object. -/
theorem loadByte_mapped {objects : Objects} {addr offset : Nat}
    (mapped : maps addr = some ⟨object, offset, rights⟩)
    (allowed : allows rights = true) :
    loadByte allows objects maps addr = some (objects object offset) := by
  simp only [loadByte, mapped, allowed, if_true]

/-- The bytes of a range that shows a part of an object are those of the part. -/
theorem load_mapped {objects : Objects} {content : Nat → UInt8} (start first : Nat)
    {size : Nat}
    (mapped : ∀ k < size, maps (start + k) = some ⟨object, first + k, rights⟩)
    (allowed : allows rights = true)
    (shows : ∀ k < size, objects object (first + k) = content (first + k)) :
    load allows objects maps start size =
      some ((List.range size).map fun k => content (first + k)) := by
  induction size generalizing start first with
  | zero => rfl
  | succ size inductionHypothesis =>
      have head : loadByte allows objects maps start = some (content (first + 0)) := by
        rw [← shows 0 (by omega)]
        exact loadByte_mapped (mapped 0 (by omega)) allowed
      have rest := inductionHypothesis (start + 1) (first + 1)
        (fun k inside => by
          rw [Nat.add_assoc, Nat.add_comm 1 k, mapped (k + 1) (by omega),
            Nat.add_assoc first 1 k, Nat.add_comm 1 k])
        (fun k inside => by
          rw [Nat.add_assoc, Nat.add_comm 1 k]
          exact shows (k + 1) (by omega))
      have shifted : (fun k => content (first + 1 + k)) =
          (fun k => content (first + k)) ∘ Nat.succ := by
        funext k
        rw [Function.comp_apply, Nat.add_assoc, Nat.add_comm 1 k]
      rw [load, head, rest, List.range_succ_eq_map, List.map_cons, List.map_map, shifted]

/-- A byte that may be stored is stored in the object, and nothing else is. -/
theorem storeByte_mapped (objects : Objects) {addr offset : Nat} (stored : UInt8)
    (mapped : maps addr = some ⟨object, offset, rights⟩)
    (allowed : allows rights = true) :
    storeByte allows objects maps addr stored =
      some fun other query =>
        if other = object ∧ query = offset then stored else objects other query := by
  simp only [storeByte, mapped, allowed, if_true]

/--
Bytes that are stored at a range that shows a part of an object are stored in the
part, and nothing else is.
-/
theorem store_mapped (objects : Objects) (start first : Nat) {bytes : List UInt8}
    (mapped : ∀ k < bytes.length,
      maps (start + k) = some ⟨object, first + k, rights⟩)
    (allowed : allows rights = true) :
    ∃ after, store allows maps objects start bytes = some after ∧
      (∀ k byte, bytes[k]? = some byte → after object (first + k) = byte) ∧
      ∀ other query, other ≠ object ∨ query < first ∨ first + bytes.length ≤ query →
        after other query = objects other query := by
  induction bytes generalizing objects start first with
  | nil => exact ⟨objects, rfl, by simp, fun _ _ _ => rfl⟩
  | cons byte bytes inductionHypothesis =>
      have head := storeByte_mapped objects byte (mapped 0 (by simp)) allowed
      rw [Nat.add_zero] at head
      obtain ⟨after, rest, inside, outside⟩ := inductionHypothesis
        (fun other query =>
          if other = object ∧ query = first then byte else objects other query)
        (start + 1) (first + 1) (fun k below => by
          rw [Nat.add_assoc, Nat.add_comm 1 k, mapped (k + 1) (by simpa using below),
            Nat.add_assoc first 1 k, Nat.add_comm 1 k])
      refine ⟨after, ?_, ?_, ?_⟩
      · rw [store, head]
        exact rest
      · intro k own isByte
        cases k with
        | zero =>
            rw [outside object (first + 0) (Or.inr (Or.inl (by omega)))]
            simpa using isByte
        | succ k =>
            rw [Nat.add_comm k 1, ← Nat.add_assoc]
            exact inside k own isByte
      · intro other query apart
        simp only [List.length_cons] at apart
        rw [outside other query (by omega), if_neg]
        rintro ⟨rfl, rfl⟩
        omega

end Contents

end SharedMap
