import Mcfi.CodeAreas
import Mcfi.DeleteCode

namespace Mcfi

open ByteMem

/-!
# What a deletion clears

`delete_code` clears whole words of the table, as many as the length needs from
the word of the first address on, and hands the range to `set_data` as it is.
Both are compared with the range that is deleted.
-/

/-- An address of a range. -/
def InSpan (addr length query : Nat) : Prop :=
  addr ≤ query ∧ query < addr + length

instance (addr length query : Nat) : Decidable (InSpan addr length query) :=
  inferInstanceAs (Decidable (_ ∧ _))

/-- An address of the words of the table that are cleared for a range. -/
def InWords (addr length query : Nat) : Prop :=
  InSpan (addr / 8 * 8) ((length + 7) / 8 * 8) query

/-- A code heap marks the address as code. -/
def MarkedIn (modules : List CodeModule) (query : Nat) : Prop :=
  ∃ m ∈ modules, m.codeHeap = true ∧ m.Holds query ∧
    marked m.codeDataBitmap (query - m.baseAddr) = true

/--
A deletion clears the table of its range, keeps that of all other code, and makes
its range data.
-/
structure DeletesExactly (runtime result : Runtime) (index : Nat) (heap : CodeModule)
    (addr length : Nat) : Prop where
  cleared : ∀ query, InSpan addr length query → result.table query = 0
  kept : ∀ query, MarkedIn result.modules query → ¬ InSpan addr length query →
    result.table query = runtime.table query
  bitmap : ∃ after, result.modules[index]? = some after ∧
    ∀ k, marked after.codeDataBitmap k =
      if InSpan addr length (heap.baseAddr + k) then false
      else marked heap.codeDataBitmap k

/--
The state before: the range has no entry behind the cleared words, other code has
none inside them, and `set_data` is called where it is exact.
-/
structure FitsWords (runtime : Runtime) (heap : CodeModule) (addr length : Nat) :
    Prop where
  behind : ∀ query, InSpan addr length query → ¬ InWords addr length query →
    runtime.table query = 0
  beside : ∀ query, MarkedIn runtime.modules query → InWords addr length query →
    ¬ InSpan addr length query → runtime.table query = 0
  inPlace : BitmapCall.InPlace ⟨false, addr - heap.baseAddr, length⟩ heap.codeDataBitmap

section Deletion

variable {runtime result : Runtime} {handle : Option Nat} {index addr length : Nat}
  {heap : CodeModule}

/-- In a list one element of which is replaced, each other one is there. -/
theorem mem_set_or_eq {α : Type} {items : List α} {place : Nat} {old new item : α}
    (found : items[place]? = some old) (listed : item ∈ items) :
    item ∈ items.set place new ∨ item = old := by
  obtain ⟨other, isItem⟩ := List.mem_iff_getElem?.mp listed
  by_cases same : other = place
  · subst same
    exact .inr (Option.some.inj (isItem.symm.trans found))
  · refine .inl (List.mem_iff_getElem?.mpr ⟨other, ?_⟩)
    rw [List.getElem?_set_ne fun equal => same equal.symm]
    exact isItem

/-- The bitmap after a deletion is data on the range exactly if `set_data` is exact. -/
private theorem bitmap_exact_iff (low : heap.baseAddr ≤ addr) :
    (∀ k, marked (setData heap.codeDataBitmap (addr - heap.baseAddr) length) k =
      if InSpan addr length (heap.baseAddr + k) then false
      else marked heap.codeDataBitmap k) ↔
      BitmapCall.InPlace ⟨false, addr - heap.baseAddr, length⟩ heap.codeDataBitmap := by
  rw [← BitmapCall.exact_iff]
  refine forall_congr' fun k => ?_
  have same : InSpan addr length (heap.baseAddr + k) ↔
      BitmapCall.Covers ⟨false, addr - heap.baseAddr, length⟩ k := by
    simp only [InSpan, BitmapCall.Covers]
    omega
  simp only [same]
  rfl

end Deletion

section Examples

end Examples

end Mcfi
