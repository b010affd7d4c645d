import Mathlib.Data.List.Basic
import Mathlib.Order.Basic

namespace Tiling

/-!
# Tilings of an interval

A list of pieces tiles an interval of natural numbers when each piece is not
empty and starts where the one before it stops.
-/

variable {α : Type} (first stop : α → Nat)

/-- The pieces tile the interval from `low` to `high`. -/
def Tiles : Nat → Nat → List α → Prop
  | low, high, [] => low = high
  | low, high, piece :: rest =>
      first piece = low ∧ low < stop piece ∧ Tiles (stop piece) high rest

variable {first stop} {low high : Nat} {pieces : List α}

theorem Tiles.le (tiles : Tiles first stop low high pieces) : low ≤ high := by
  induction pieces generalizing low with
  | nil => exact Nat.le_of_eq tiles
  | cons piece rest inductionHypothesis =>
      obtain ⟨_, nonempty, later⟩ := tiles
      exact Nat.le_trans (Nat.le_of_lt nonempty) (inductionHypothesis later)

/-- Every piece lies inside the interval and is not empty. -/
theorem Tiles.inside
    (tiles : Tiles first stop low high pieces) {piece : α}
    (member : piece ∈ pieces) :
    low ≤ first piece ∧ first piece < stop piece ∧ stop piece ≤ high := by
  induction pieces generalizing low with
  | nil => cases member
  | cons head rest inductionHypothesis =>
      obtain ⟨starts, nonempty, later⟩ := tiles
      rcases List.mem_cons.mp member with rfl | inRest
      · exact ⟨Nat.le_of_eq starts.symm, starts ▸ nonempty, later.le⟩
      · have here := inductionHypothesis later inRest
        exact ⟨by omega, here.2⟩

/-- A piece stops at the end or where another one starts. -/
theorem Tiles.next
    (tiles : Tiles first stop low high pieces) {piece : α}
    (member : piece ∈ pieces) :
    (stop piece = high ∧ pieces.getLast? = some piece) ∨
      ∃ other ∈ pieces, first other = stop piece := by
  induction pieces generalizing low with
  | nil => cases member
  | cons head rest inductionHypothesis =>
      obtain ⟨_, _, later⟩ := tiles
      cases rest with
      | nil =>
          cases List.mem_singleton.mp member
          exact Or.inl ⟨later, rfl⟩
      | cons second others =>
          rcases List.mem_cons.mp member with rfl | inRest
          · exact Or.inr ⟨second, by simp, later.1⟩
          · rcases inductionHypothesis later inRest with last | ⟨other, here,
              starts⟩
            · exact Or.inl ⟨last.1, by rw [List.getLast?_cons_cons]; exact last.2⟩
            · exact Or.inr ⟨other, List.mem_cons_of_mem _ here, starts⟩

/-- The last piece stops at the end. -/
theorem Tiles.last
    (tiles : Tiles first stop low high pieces) {piece : α}
    (isLast : pieces.getLast? = some piece) : stop piece = high := by
  induction pieces generalizing low with
  | nil => cases isLast
  | cons head rest inductionHypothesis =>
      obtain ⟨_, _, later⟩ := tiles
      cases rest with
      | nil =>
          cases isLast
          exact later
      | cons second others =>
          rw [List.getLast?_cons_cons] at isLast
          exact inductionHypothesis later isLast

/-- A tiled interval that is not empty starts with a piece. -/
theorem Tiles.head
    (tiles : Tiles first stop low high pieces) (nonempty : low < high) :
    ∃ piece ∈ pieces, first piece = low := by
  cases pieces with
  | nil => exact absurd tiles (Nat.ne_of_lt nonempty)
  | cons head rest => exact ⟨head, by simp, tiles.1⟩

/-- Two pieces that start at one place are the same. -/
theorem Tiles.unique
    (tiles : Tiles first stop low high pieces) {left right : α}
    (leftMember : left ∈ pieces) (rightMember : right ∈ pieces)
    (same : first left = first right) : left = right := by
  induction pieces generalizing low with
  | nil => cases leftMember
  | cons head rest inductionHypothesis =>
      obtain ⟨starts, nonempty, later⟩ := tiles
      rcases List.mem_cons.mp leftMember with rfl | leftLater <;>
        rcases List.mem_cons.mp rightMember with rfl | rightLater
      · rfl
      · have past := (later.inside rightLater).1
        omega
      · have past := (later.inside leftLater).1
        omega
      · exact inductionHypothesis later leftLater rightLater

/-- A piece stops before the later ones start. -/
theorem Tiles.ordered
    (tiles : Tiles first stop low high pieces) {left right : α}
    (leftMember : left ∈ pieces) (rightMember : right ∈ pieces)
    (before : first left < first right) : stop left ≤ first right := by
  induction pieces generalizing low with
  | nil => cases leftMember
  | cons head rest inductionHypothesis =>
      obtain ⟨starts, nonempty, later⟩ := tiles
      rcases List.mem_cons.mp leftMember with rfl | leftLater <;>
        rcases List.mem_cons.mp rightMember with rfl | rightLater
      · exact absurd before (Nat.lt_irrefl _)
      · exact (later.inside rightLater).1
      · have past := (later.inside leftLater).1
        omega
      · exact inductionHypothesis later leftLater rightLater

/-- As many pieces of some width as there are fit into the interval. -/
theorem Tiles.mul_countP_le
    (tiles : Tiles first stop low high pieces) (wide : α → Bool) (width : Nat)
    (isWide : ∀ piece ∈ pieces, wide piece = true →
      first piece + width ≤ stop piece) :
    width * pieces.countP wide ≤ high - low := by
  induction pieces generalizing low with
  | nil => simp
  | cons head rest inductionHypothesis =>
      obtain ⟨starts, nonempty, later⟩ := tiles
      have below := inductionHypothesis later fun piece member =>
        isWide piece (List.mem_cons_of_mem _ member)
      have bound := later.le
      rw [List.countP_cons]
      split
      next here =>
        have headWide := isWide head (List.mem_cons_self ..) here
        rw [Nat.mul_add, Nat.mul_one]
        omega
      next =>
        rw [Nat.add_zero]
        omega

end Tiling
