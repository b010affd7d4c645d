import Mathlib.Data.List.Sort
import Mathlib.Tactic.Common

/-!
# Lists of disjoint spans

A span is given by its first point and the point behind its last one.  The spans
of a list are disjoint when none is empty and no two of them meet; sorted by
their first points, they then follow each other, and what lies between two
neighbours lies in no span.
-/

namespace Spans

variable {α : Type} (first stop : α → Nat)

/-- A point lies in a span. -/
def Inside (point : Nat) (span : α) : Prop :=
  first span ≤ point ∧ point < stop span

/-- A point lies in a span of the list. -/
def Covered (spans : List α) (point : Nat) : Prop :=
  ∃ span ∈ spans, Inside first stop point span

/-- Two spans do not meet. -/
def Apart (left right : α) : Prop :=
  stop left ≤ first right ∨ stop right ≤ first left

instance (left right : α) : Decidable (Apart first stop left right) :=
  inferInstanceAs (Decidable (_ ∨ _))

/-- No span is empty, and no two spans meet. -/
structure Disjoint (spans : List α) : Prop where
  nonempty : ∀ span ∈ spans, first span < stop span
  apart : spans.Pairwise (Apart first stop)

/-- The spans follow each other. -/
def Ordered (spans : List α) : Prop :=
  spans.Pairwise fun left right => stop left ≤ first right

variable {first stop}

theorem Apart.symm {left right : α} (apart : Apart first stop left right) :
    Apart first stop right left :=
  Or.symm apart

instance : Std.Symm (Apart first stop) where
  symm _ _ := Apart.symm

/-- Disjointness does not depend on the order of the list. -/
theorem Disjoint.perm
    {spans others : List α} (disjoint : Disjoint first stop spans)
    (perm : spans.Perm others) : Disjoint first stop others where
  nonempty span member := disjoint.nonempty span (perm.mem_iff.mpr member)
  apart := (perm.pairwise_iff fun apart => apart.symm).mp disjoint.apart

/-- A part of a list of disjoint spans. -/
theorem Disjoint.tail
    {span : α} {spans : List α}
    (disjoint : Disjoint first stop (span :: spans)) :
    Disjoint first stop spans where
  nonempty other member := disjoint.nonempty other (List.mem_cons_of_mem _ member)
  apart := (List.pairwise_cons.mp disjoint.apart).2

/-- Adding a span that meets no other. -/
theorem Disjoint.cons
    {span : α} {spans : List α} (disjoint : Disjoint first stop spans)
    (nonempty : first span < stop span)
    (apart : ∀ other ∈ spans, Apart first stop span other) :
    Disjoint first stop (span :: spans) where
  nonempty := by
    intro other member
    rcases List.mem_cons.mp member with rfl | later
    · exact nonempty
    · exact disjoint.nonempty other later
  apart := List.pairwise_cons.mpr ⟨apart, disjoint.apart⟩

/-- Disjoint spans that are sorted by their first points follow each other. -/
theorem Disjoint.ordered
    {spans : List α} (disjoint : Disjoint first stop spans)
    (sorted : spans.Pairwise fun left right => first left ≤ first right) :
    Ordered first stop spans := by
  have both := disjoint.apart.and sorted
  refine both.imp_of_mem ?_
  rintro left right leftMember rightMember ⟨before | after, inOrder⟩
  · exact before
  · have nonempty := disjoint.nonempty right rightMember
    exact absurd (Nat.lt_of_lt_of_le nonempty (Nat.le_trans after inOrder))
      (Nat.lt_irrefl _)

/-- What lies between two neighbours lies in no span. -/
theorem Ordered.gap_free
    {earlier later : List α} {below above : α}
    (ordered : Ordered first stop (earlier ++ below :: above :: later))
    (nonempty : ∀ span ∈ earlier ++ below :: above :: later,
      first span < stop span)
    {point : Nat} (behind : stop below ≤ point) (before : point < first above) :
    ¬ Covered first stop (earlier ++ below :: above :: later) point := by
  rintro ⟨span, member, low, high⟩
  obtain ⟨_, rest, across⟩ := List.pairwise_append.mp ordered
  obtain ⟨belowFirst, fromAbove⟩ := List.pairwise_cons.mp rest
  obtain ⟨aboveFirst, _⟩ := List.pairwise_cons.mp fromAbove
  rcases List.mem_append.mp member with inEarlier | inRest
  · have beforeBelow := across span inEarlier below (by simp)
    have belowNonempty := nonempty below (by simp)
    omega
  · simp only [List.mem_cons] at inRest
    rcases inRest with rfl | rfl | inLater
    · omega
    · omega
    · have afterAbove := aboveFirst span inLater
      have aboveNonempty := nonempty above (by simp)
      omega

end Spans
