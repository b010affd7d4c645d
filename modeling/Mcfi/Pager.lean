import Mathlib.Algebra.Group.Nat.Defs
import Mathlib.Data.List.Sort
import Mcfi.Kv
import Mcfi.Lib.Spans

namespace Mcfi

open Spans

/-!
# The memory pager

`pager.c` keeps the list of the mapped regions of the sandbox.  Its regions must
not overlap; then `VmmapFindSpace` and `VmmapFindMapSpaceAboveHint` answer with
pages that no region covers, and overwriting or removing a region keeps the
others disjoint.

The list is sorted whenever it is read, so the order in which the source leaves
it after swapping entries is not modelled.
-/

/-- `struct VmmapEntry`. -/
structure VmmapEntry where
  pageNum : Nat
  npages : Nat
  deriving Repr, DecidableEq

namespace VmmapEntry

/-- The page behind a region, `ent_end_page`. -/
def endPage (entry : VmmapEntry) : Nat :=
  entry.pageNum + entry.npages

end VmmapEntry

/-- `struct Vmmap`. -/
abbrev Vmmap := List VmmapEntry

namespace Vmmap

/-- A region covers the page. -/
def Covers (vm : Vmmap) (page : Nat) : Prop :=
  Covered VmmapEntry.pageNum VmmapEntry.endPage vm page

/-- The regions do not overlap. -/
def NoOverlap (vm : Vmmap) : Prop :=
  Spans.Disjoint VmmapEntry.pageNum VmmapEntry.endPage vm

/-- No region covers any of these pages. -/
def Free (vm : Vmmap) (pageNum npages : Nat) : Prop :=
  ∀ page, pageNum ≤ page → page < pageNum + npages → ¬ vm.Covers page

/-- The regions end below a page. -/
def Within (vm : Vmmap) (limit : Nat) : Prop :=
  ∀ entry ∈ vm, entry.endPage ≤ limit

end Vmmap

/-- `VmmapMakeSorted`. -/
def vmmapMakeSorted (vm : Vmmap) : Vmmap :=
  vm.insertionSort fun left right => left.pageNum ≤ right.pageNum

/-- The difference of two 64-bit numbers. -/
def sub64 (left right : Nat) : Nat :=
  (left + (2 ^ 64 - right % 2 ^ 64)) % 2 ^ 64

/-- `VmmapFindSpace`: the linear search from high pages down. -/
def vmmapFindSpace (vm : Vmmap) (numPages : Nat) : Nat :=
  search (vmmapMakeSorted vm).reverse
where
  /-- The loop, over the regions from the last one down. -/
  search : List VmmapEntry → Nat
    | above :: below :: rest =>
        if numPages ≤ sub64 above.pageNum below.endPage then
          sub64 above.pageNum numPages
        else
          search (below :: rest)
    | _ => 0

/-- `VmmapFindMapSpaceAboveHint`: the linear search from `uaddr` up. -/
def vmmapFindMapSpaceAboveHint (vm : Vmmap) (uaddr numPages : Nat) : Nat :=
  search (vmmapMakeSorted vm)
where
  /-- The loop, over the regions from the first one up. -/
  search : List VmmapEntry → Nat
    | below :: above :: rest =>
        let usrPage := uaddr / 4096
        let endPage :=
          if below.endPage ≤ usrPage ∧ usrPage < above.pageNum then usrPage
          else below.endPage
        if usrPage ≤ endPage ∧ numPages ≤ sub64 above.pageNum endPage then
          endPage
        else
          search (above :: rest)
    | _ => 0

/--
The loop of `VmmapUpdate`, which cuts a region out of the others.  The last
branch asserts that the entry and the region do not meet, which is what the
branches before it leave.
-/
def vmmapCut (pageNum newRegionEndPage : Nat) : List VmmapEntry → List VmmapEntry
  | [] => []
  | ent :: rest =>
      if ent.pageNum < pageNum ∧ newRegionEndPage < ent.endPage then
        ⟨ent.pageNum, pageNum - ent.pageNum⟩ ::
          (rest ++ [⟨newRegionEndPage, ent.endPage - newRegionEndPage⟩])
      else if ent.pageNum < pageNum ∧ pageNum < ent.endPage then
        ⟨ent.pageNum, pageNum - ent.pageNum⟩ ::
          vmmapCut pageNum newRegionEndPage rest
      else if ent.pageNum < newRegionEndPage ∧
          newRegionEndPage < ent.endPage then
        ⟨newRegionEndPage, ent.endPage - newRegionEndPage⟩ :: rest
      else if pageNum ≤ ent.pageNum ∧ ent.endPage ≤ newRegionEndPage then
        vmmapCut pageNum newRegionEndPage rest
      else
        ent :: vmmapCut pageNum newRegionEndPage rest

/-- `VmmapUpdate`, with the check of `VmmapRemoveMarked`. -/
def vmmapUpdate (vm : Vmmap) (pageNum npages : Nat) (remove : Bool) :
    Rt Vmmap := do
  check "VmmapUpdate" (0 < npages)
  let kept := vmmapCut pageNum (pageNum + npages) (vmmapMakeSorted vm)
  let updated := if remove then kept else kept ++ [⟨pageNum, npages⟩]
  if updated.isEmpty && !vm.isEmpty then
    .error (.quit "No valid entries in VM map\n")
  else
    return updated

/-- `VmmapAddWithOverwrite`. -/
def vmmapAddWithOverwrite (vm : Vmmap) (pageNum npages : Nat) : Rt Vmmap :=
  vmmapUpdate vm pageNum npages false

/-- `VmmapAdd`, which does not look at the other regions. -/
def vmmapAdd (vm : Vmmap) (pageNum npages : Nat) : Vmmap :=
  vm ++ [⟨pageNum, npages⟩]

/-- `VmmapRemove`. -/
def vmmapRemove (vm : Vmmap) (pageNum npages : Nat) : Rt Vmmap :=
  vmmapUpdate vm pageNum npages true

section Sorting

theorem vmmapMakeSorted_perm (vm : Vmmap) : (vmmapMakeSorted vm).Perm vm :=
  List.perm_insertionSort _ vm

theorem covers_makeSorted (vm : Vmmap) (page : Nat) :
    Vmmap.Covers (vmmapMakeSorted vm) page ↔ vm.Covers page := by
  simp only [Vmmap.Covers, Covered, (vmmapMakeSorted_perm vm).mem_iff]

/-- Sorting puts regions that do not overlap behind each other. -/
theorem Vmmap.NoOverlap.ordered
    {vm : Vmmap} (noOverlap : vm.NoOverlap) :
    Ordered VmmapEntry.pageNum VmmapEntry.endPage (vmmapMakeSorted vm) := by
  apply (noOverlap.perm (vmmapMakeSorted_perm vm).symm).ordered
  exact List.pairwise_insertionSort
    (fun left right : VmmapEntry => left.pageNum ≤ right.pageNum) vm

theorem Vmmap.NoOverlap.sorted
    {vm : Vmmap} (noOverlap : vm.NoOverlap) :
    (vmmapMakeSorted vm).NoOverlap :=
  noOverlap.perm (vmmapMakeSorted_perm vm).symm

end Sorting

section Cutting

variable {pageNum newEnd : Nat} {entries : List VmmapEntry}

/-- What is left of the regions lies in the regions, and off the cut. -/
theorem vmmapCut_within
    (region : pageNum < newEnd)
    (ordered : Ordered VmmapEntry.pageNum VmmapEntry.endPage entries)
    (nonempty : ∀ ent ∈ entries, ent.pageNum < ent.endPage)
    {piece : VmmapEntry} (member : piece ∈ vmmapCut pageNum newEnd entries) :
    piece.pageNum < piece.endPage ∧
      (piece.endPage ≤ pageNum ∨ newEnd ≤ piece.pageNum) ∧
      ∃ ent ∈ entries, ent.pageNum ≤ piece.pageNum ∧
        piece.endPage ≤ ent.endPage := by
  induction entries with
  | nil =>
      cases member
  | cons ent rest inductionHypothesis =>
      obtain ⟨behind, restOrdered⟩ := List.pairwise_cons.mp ordered
      have entNonempty := nonempty ent (by simp)
      have restNonempty : ∀ other ∈ rest, other.pageNum < other.endPage :=
        fun other later => nonempty other (List.mem_cons_of_mem _ later)
      -- a region behind the cut stays as it is
      have untouched : newEnd < ent.endPage → piece ∈ rest →
          piece.pageNum < piece.endPage ∧
            (piece.endPage ≤ pageNum ∨ newEnd ≤ piece.pageNum) ∧
            ∃ other ∈ ent :: rest, other.pageNum ≤ piece.pageNum ∧
              piece.endPage ≤ other.endPage := by
        intro past later
        have after := behind piece later
        exact ⟨restNonempty piece later, by omega, piece,
          List.mem_cons_of_mem _ later, le_refl _, le_refl _⟩
      have deeper : piece ∈ vmmapCut pageNum newEnd rest →
          piece.pageNum < piece.endPage ∧
            (piece.endPage ≤ pageNum ∨ newEnd ≤ piece.pageNum) ∧
            ∃ other ∈ ent :: rest, other.pageNum ≤ piece.pageNum ∧
              piece.endPage ≤ other.endPage := by
        intro later
        obtain ⟨positive, off, other, otherMember, inside⟩ :=
          inductionHypothesis restOrdered restNonempty later
        exact ⟨positive, off, other, List.mem_cons_of_mem _ otherMember, inside⟩
      unfold vmmapCut at member
      split at member
      next across =>
        rcases List.mem_cons.mp member with rfl | later
        · refine ⟨?_, ?_, ent, by simp, ?_⟩ <;>
            simp only [VmmapEntry.endPage] at * <;> omega
        · rcases List.mem_append.mp later with inRest | last
          · exact untouched across.2 inRest
          · rw [List.mem_singleton] at last
            subst last
            refine ⟨?_, ?_, ent, by simp, ?_⟩ <;>
              simp only [VmmapEntry.endPage] at * <;> omega
      next =>
        split at member
        next =>
          rcases List.mem_cons.mp member with rfl | later
          · refine ⟨?_, ?_, ent, by simp, ?_⟩ <;>
              simp only [VmmapEntry.endPage] at * <;> omega
          · exact deeper later
        next =>
          split at member
          next start =>
            rcases List.mem_cons.mp member with rfl | later
            · refine ⟨?_, ?_, ent, by simp, ?_⟩ <;>
                simp only [VmmapEntry.endPage] at * <;> omega
            · exact untouched start.2 later
          next =>
            split at member
            next => exact deeper member
            next =>
              rcases List.mem_cons.mp member with rfl | later
              · refine ⟨entNonempty, ?_, piece, by simp, le_refl _, le_refl _⟩
                simp only [VmmapEntry.endPage] at *
                omega
              · exact deeper later

/-- Cutting leaves the regions disjoint. -/
theorem vmmapCut_disjoint
    (region : pageNum < newEnd)
    (ordered : Ordered VmmapEntry.pageNum VmmapEntry.endPage entries)
    (nonempty : ∀ ent ∈ entries, ent.pageNum < ent.endPage) :
    Spans.Disjoint VmmapEntry.pageNum VmmapEntry.endPage
      (vmmapCut pageNum newEnd entries) := by
  induction entries with
  | nil =>
      exact ⟨by simp [vmmapCut], by simp [vmmapCut]⟩
  | cons ent rest inductionHypothesis =>
      obtain ⟨behind, restOrdered⟩ := List.pairwise_cons.mp ordered
      have entNonempty := nonempty ent (by simp)
      have restNonempty : ∀ other ∈ rest, other.pageNum < other.endPage :=
        fun other later => nonempty other (List.mem_cons_of_mem _ later)
      have restDisjoint :
          Spans.Disjoint VmmapEntry.pageNum VmmapEntry.endPage rest :=
        ⟨restNonempty, restOrdered.imp fun before => Or.inl before⟩
      have tail := inductionHypothesis restOrdered restNonempty
      -- a piece of the entry lies before what is left of the others
      have joined : ∀ piece : VmmapEntry, piece.pageNum < piece.endPage →
          piece.endPage ≤ ent.endPage →
            Spans.Disjoint VmmapEntry.pageNum VmmapEntry.endPage
              (piece :: vmmapCut pageNum newEnd rest) := by
        intro piece positive inside
        refine tail.cons positive fun other member => Or.inl ?_
        obtain ⟨_, _, source, sourceMember, low, _⟩ :=
          vmmapCut_within region restOrdered restNonempty member
        exact (inside.trans (behind source sourceMember)).trans low
      have beforeRest : ∀ piece : VmmapEntry, piece.pageNum < piece.endPage →
          piece.endPage ≤ ent.endPage →
            Spans.Disjoint VmmapEntry.pageNum VmmapEntry.endPage
              (piece :: rest) :=
        fun piece positive inside => restDisjoint.cons positive
          fun other member => Or.inl (inside.trans (behind other member))
      unfold vmmapCut
      split
      next across =>
        -- the second half is filed behind the others
        have reordered : (⟨newEnd, ent.endPage - newEnd⟩ ::
            ⟨ent.pageNum, pageNum - ent.pageNum⟩ :: rest).Perm
            (⟨ent.pageNum, pageNum - ent.pageNum⟩ ::
              (rest ++ [⟨newEnd, ent.endPage - newEnd⟩])) :=
          (List.perm_append_singleton _ _).symm
        refine Spans.Disjoint.perm (Spans.Disjoint.cons (beforeRest _ ?_ ?_) ?_ ?_)
          reordered
        · simp only [VmmapEntry.endPage] at *; omega
        · simp only [VmmapEntry.endPage] at *; omega
        · simp only [VmmapEntry.endPage] at *; omega
        · intro other member
          rcases List.mem_cons.mp member with rfl | later
          · right
            simp only [VmmapEntry.endPage] at *
            omega
          · left
            have after := behind other later
            simp only [VmmapEntry.endPage] at *
            omega
      next =>
        split
        next =>
          apply joined <;> simp only [VmmapEntry.endPage] at * <;> omega
        next =>
          split
          next =>
            apply beforeRest <;> simp only [VmmapEntry.endPage] at * <;> omega
          next =>
            split
            next => exact tail
            next => exact joined ent entNonempty (le_refl _)

/-- Cutting uncovers the region only. -/
theorem covered_vmmapCut
    (region : pageNum < newEnd)
    (ordered : Ordered VmmapEntry.pageNum VmmapEntry.endPage entries)
    (nonempty : ∀ ent ∈ entries, ent.pageNum < ent.endPage) (page : Nat) :
    Covered VmmapEntry.pageNum VmmapEntry.endPage
        (vmmapCut pageNum newEnd entries) page ↔
      Covered VmmapEntry.pageNum VmmapEntry.endPage entries page ∧
        (page < pageNum ∨ newEnd ≤ page) := by
  constructor
  · rintro ⟨piece, member, low, high⟩
    obtain ⟨_, off, ent, entMember, inside⟩ :=
      vmmapCut_within region ordered nonempty member
    exact ⟨⟨ent, entMember, by omega, by omega⟩, by omega⟩
  · rintro ⟨⟨ent, member, low, high⟩, off⟩
    clear ordered nonempty
    induction entries with
    | nil =>
        cases member
    | cons head rest inductionHypothesis =>
        have deeper : ent ∈ rest →
            ∃ piece ∈ vmmapCut pageNum newEnd rest,
              Inside VmmapEntry.pageNum VmmapEntry.endPage page piece :=
          inductionHypothesis
        simp only [Covered, Inside, VmmapEntry.endPage] at *
        unfold vmmapCut
        split
        next across =>
          rcases List.mem_cons.mp member with rfl | later
          · rcases off with before | behind
            · exact ⟨_, List.mem_cons_self, low, by simp only; omega⟩
            · refine ⟨_, List.mem_cons_of_mem _ (List.mem_append_right _
                (List.mem_singleton.mpr rfl)), behind, ?_⟩
              simp only [VmmapEntry.endPage] at *
              omega
          · exact ⟨ent, by simp [later], low, high⟩
        next =>
          split
          next =>
            rcases List.mem_cons.mp member with rfl | later
            · refine ⟨_, List.mem_cons_self, low, ?_⟩
              simp only [VmmapEntry.endPage] at *
              omega
            · obtain ⟨piece, pieceMember, inside⟩ := deeper later
              exact ⟨piece, List.mem_cons_of_mem _ pieceMember, inside⟩
          next =>
            split
            next =>
              rcases List.mem_cons.mp member with rfl | later
              · refine ⟨_, List.mem_cons_self, ?_, ?_⟩ <;>
                  simp only [VmmapEntry.endPage] at * <;> omega
              · exact ⟨ent, List.mem_cons_of_mem _ later, low, high⟩
            next =>
              split
              next =>
                rcases List.mem_cons.mp member with rfl | later
                · simp only [VmmapEntry.endPage] at *
                  omega
                · exact deeper later
              next =>
                rcases List.mem_cons.mp member with rfl | later
                · exact ⟨ent, List.mem_cons_self, low, high⟩
                · obtain ⟨piece, pieceMember, inside⟩ := deeper later
                  exact ⟨piece, List.mem_cons_of_mem _ pieceMember, inside⟩

end Cutting

section Updating

variable {vm result : Vmmap} {pageNum npages : Nat} {remove : Bool}

/-- What a returned update has done. -/
theorem vmmapUpdate_cases
    (returned : vmmapUpdate vm pageNum npages remove = .ok result) :
    0 < npages ∧
      result = vmmapCut pageNum (pageNum + npages) (vmmapMakeSorted vm) ++
        (if remove then [] else [⟨pageNum, npages⟩]) := by
  unfold vmmapUpdate at returned
  rw [bind_eq_ok] at returned
  obtain ⟨_, positive, returned⟩ := returned
  rw [check_eq_ok, decide_eq_true_eq] at positive
  refine ⟨positive, ?_⟩
  cases remove <;> simp only [if_true, Bool.false_eq_true, if_false] at returned
  all_goals
    split at returned
    next => cases returned
    next =>
      rw [pure_eq_ok] at returned
      simp [← returned]

/-- Adding a region that is not empty returns. -/
theorem vmmapAddWithOverwrite_ok
    (vm : Vmmap) (pageNum : Nat) (positive : 0 < npages) :
    ∃ added, vmmapAddWithOverwrite vm pageNum npages = .ok added := by
  simp [vmmapAddWithOverwrite, vmmapUpdate, check, positive, bind, Except.bind,
    pure, Except.pure]

/-- An update keeps the regions from overlapping. -/
theorem vmmapUpdate_noOverlap
    (noOverlap : vm.NoOverlap)
    (returned : vmmapUpdate vm pageNum npages remove = .ok result) :
    result.NoOverlap := by
  obtain ⟨positive, rfl⟩ := vmmapUpdate_cases returned
  have region : pageNum < pageNum + npages := Nat.lt_add_of_pos_right positive
  have ordered := noOverlap.ordered
  have nonempty := noOverlap.sorted.nonempty
  have kept := vmmapCut_disjoint region ordered nonempty
  cases remove with
  | true =>
      rw [if_pos rfl, List.append_nil]
      exact kept
  | false =>
      have added : Spans.Disjoint VmmapEntry.pageNum VmmapEntry.endPage
          (⟨pageNum, npages⟩ :: vmmapCut pageNum (pageNum + npages)
            (vmmapMakeSorted vm)) := by
        refine kept.cons region fun other member => ?_
        obtain ⟨_, off, _⟩ := vmmapCut_within region ordered nonempty member
        exact off.symm
      exact added.perm (List.perm_append_singleton _ _).symm

/-- An update covers or uncovers its region, and nothing else. -/
theorem covers_vmmapUpdate
    (noOverlap : vm.NoOverlap)
    (returned : vmmapUpdate vm pageNum npages remove = .ok result)
    (page : Nat) :
    result.Covers page ↔
      (vm.Covers page ∧ (page < pageNum ∨ pageNum + npages ≤ page)) ∨
        (remove = false ∧ pageNum ≤ page ∧ page < pageNum + npages) := by
  obtain ⟨positive, rfl⟩ := vmmapUpdate_cases returned
  have region : pageNum < pageNum + npages := Nat.lt_add_of_pos_right positive
  have kept := covered_vmmapCut region noOverlap.ordered
    noOverlap.sorted.nonempty page
  have sorted := covers_makeSorted vm page
  simp only [Vmmap.Covers] at sorted ⊢
  rw [← sorted, ← kept]
  cases remove with
  | true =>
      simp
  | false =>
      simp only [Covered, Inside, VmmapEntry.endPage, List.mem_append,
        Bool.false_eq_true, if_false, List.mem_singleton, or_and_right,
        exists_or, exists_eq_left, true_and]

/-- Overwriting a region covers its pages, and uncovers none. -/
theorem covers_vmmapAddWithOverwrite
    (noOverlap : vm.NoOverlap)
    (returned : vmmapAddWithOverwrite vm pageNum npages = .ok result)
    (page : Nat) :
    result.Covers page ↔
      vm.Covers page ∨ pageNum ≤ page ∧ page < pageNum + npages := by
  rw [covers_vmmapUpdate noOverlap returned]
  by_cases inside : pageNum ≤ page ∧ page < pageNum + npages
  · simp [inside]
  · have outside : page < pageNum ∨ pageNum + npages ≤ page := by omega
    simp [outside, inside]

/-- Removing a region uncovers its pages, and no others. -/
theorem covers_vmmapRemove
    (noOverlap : vm.NoOverlap)
    (returned : vmmapRemove vm pageNum npages = .ok result) (page : Nat) :
    result.Covers page ↔
      vm.Covers page ∧ ¬ (pageNum ≤ page ∧ page < pageNum + npages) := by
  rw [covers_vmmapUpdate noOverlap returned]
  simp only [Bool.true_eq_false, false_and, or_false, not_and, not_lt]
  exact and_congr_right fun _ => by omega

/-- An update keeps the regions below a limit that holds its own region. -/
theorem vmmapUpdate_within
    {limit : Nat} (noOverlap : vm.NoOverlap) (within : vm.Within limit)
    (returned : vmmapUpdate vm pageNum npages remove = .ok result)
    (fits : remove = false → pageNum + npages ≤ limit) :
    result.Within limit := by
  obtain ⟨positive, rfl⟩ := vmmapUpdate_cases returned
  have region : pageNum < pageNum + npages := Nat.lt_add_of_pos_right positive
  intro entry member
  rcases List.mem_append.mp member with inKept | new
  · obtain ⟨_, _, source, sourceMember, _, below⟩ :=
      vmmapCut_within region noOverlap.ordered noOverlap.sorted.nonempty inKept
    exact below.trans
      (within source ((vmmapMakeSorted_perm vm).mem_iff.mp sourceMember))
  · cases remove with
    | true => simp at new
    | false =>
        simp only [Bool.false_eq_true, if_false, List.mem_singleton] at new
        subst new
        exact fits rfl

/-- Adding a region keeps the regions apart when no region is there. -/
theorem vmmapAdd_noOverlap
    (noOverlap : vm.NoOverlap) (positive : 0 < npages)
    (free : vm.Free pageNum npages) : (vmmapAdd vm pageNum npages).NoOverlap := by
  have added : Spans.Disjoint VmmapEntry.pageNum VmmapEntry.endPage
      (⟨pageNum, npages⟩ :: vm) := by
    refine noOverlap.cons (Nat.lt_add_of_pos_right positive) ?_
    intro other member
    have nonempty := noOverlap.nonempty other member
    by_contra meets
    simp only [Spans.Apart, VmmapEntry.endPage, not_or, not_le] at meets nonempty
    -- the later of the two first pages lies in both
    refine free (max pageNum other.pageNum) (le_max_left _ _) (by omega)
      ⟨other, member, le_max_right _ _, ?_⟩
    simp only [VmmapEntry.endPage]
    omega
  exact added.perm (List.perm_append_singleton _ _).symm

/-- Adding a region covers its pages. -/
theorem covers_vmmapAdd {page : Nat} :
    Vmmap.Covers (vmmapAdd vm pageNum npages) page ↔
      vm.Covers page ∨ pageNum ≤ page ∧ page < pageNum + npages := by
  simp only [Vmmap.Covers, vmmapAdd, Covered, Inside, VmmapEntry.endPage,
    List.mem_append, List.mem_singleton, or_and_right, exists_or,
    exists_eq_left]

/-- Adding a region below a limit keeps the regions below it. -/
theorem vmmapAdd_within
    {limit : Nat} (within : vm.Within limit) (fits : pageNum + npages ≤ limit) :
    Vmmap.Within (vmmapAdd vm pageNum npages) limit := by
  intro entry member
  rcases List.mem_append.mp member with old | new
  · exact within entry old
  · rw [List.mem_singleton.mp new]
    exact fits

end Updating

section Searching

variable {vm : Vmmap} {limit : Nat}

theorem sub64_of_le {left right : Nat} (small : left < 2 ^ 64)
    (ordered : right ≤ left) : sub64 left right = left - right := by
  unfold sub64
  omega

/-- The pages between two neighbours, when there are enough of them. -/
structure Gap (vm : Vmmap) (limit page numPages : Nat) : Prop where
  free : ∀ other, page ≤ other → other < page + numPages → ¬ vm.Covers other
  fits : page + numPages ≤ limit

/-- A gap between two neighbours of the sorted list. -/
private theorem gap_between
    {earlier later : List VmmapEntry} {below above : VmmapEntry}
    {page numPages : Nat} (noOverlap : vm.NoOverlap)
    (within : vm.Within limit)
    (split : vmmapMakeSorted vm = earlier ++ below :: above :: later)
    (behind : below.endPage ≤ page)
    (before : page + numPages ≤ above.pageNum) :
    Gap vm limit page numPages := by
  have ordered := noOverlap.ordered
  have nonempty := noOverlap.sorted.nonempty
  have perm := vmmapMakeSorted_perm vm
  rw [split] at ordered nonempty perm
  refine ⟨fun other low high covered => ?_, ?_⟩
  · rw [← covers_makeSorted, split] at covered
    exact ordered.gap_free nonempty (by omega) (by omega) covered
  · have aboveIn : above ∈ vm := perm.mem_iff.mp (by simp)
    have aboveBelow := within above aboveIn
    simp only [VmmapEntry.endPage] at aboveBelow
    omega

/-- `VmmapFindSpace` answers with pages that nothing covers. -/
theorem vmmapFindSpace_gap
    {numPages : Nat} (noOverlap : vm.NoOverlap) (within : vm.Within limit)
    (small : limit < 2 ^ 64) (found : vmmapFindSpace vm numPages ≠ 0) :
    Gap vm limit (vmmapFindSpace vm numPages) numPages := by
  have loop : ∀ (rest done : List VmmapEntry),
      vmmapMakeSorted vm = (done.reverse ++ rest).reverse →
        vmmapFindSpace.search numPages rest ≠ 0 →
          Gap vm limit (vmmapFindSpace.search numPages rest) numPages := by
    intro rest
    induction rest with
    | nil => exact fun _ _ nonzero => absurd rfl nonzero
    | cons above rest inductionHypothesis =>
        intro done split nonzero
        cases rest with
        | nil => exact absurd rfl nonzero
        | cons below rest =>
            have sorted : vmmapMakeSorted vm =
                rest.reverse ++ below :: above :: done := by
              rw [split]
              simp
            have ordered := noOverlap.ordered
            rw [sorted] at ordered
            obtain ⟨_, tail, _⟩ := List.pairwise_append.mp ordered
            have neighbours : below.endPage ≤ above.pageNum :=
              (List.pairwise_cons.mp tail).1 above (by simp)
            have aboveIn : above ∈ vm :=
              (vmmapMakeSorted_perm vm).mem_iff.mp (by rw [sorted]; simp)
            have aboveBelow := within above aboveIn
            unfold vmmapFindSpace.search at nonzero ⊢
            split at nonzero
            next enough =>
              rw [if_pos enough]
              simp only [VmmapEntry.endPage] at *
              rw [sub64_of_le (by omega) neighbours] at enough
              rw [sub64_of_le (by omega) (by omega)] at nonzero ⊢
              exact gap_between noOverlap within sorted
                (by simp only [VmmapEntry.endPage]; omega) (by omega)
            next notEnough =>
              rw [if_neg notEnough]
              apply inductionHypothesis (above :: done) _ nonzero
              rw [split]
              simp
  exact loop _ [] (by simp) found

/-- `VmmapFindMapSpaceAboveHint` answers with pages that nothing covers. -/
theorem vmmapFindMapSpaceAboveHint_gap
    {uaddr numPages : Nat} (noOverlap : vm.NoOverlap)
    (within : vm.Within limit) (small : limit < 2 ^ 64)
    (found : vmmapFindMapSpaceAboveHint vm uaddr numPages ≠ 0) :
    Gap vm limit (vmmapFindMapSpaceAboveHint vm uaddr numPages) numPages := by
  have loop : ∀ (rest done : List VmmapEntry),
      vmmapMakeSorted vm = done ++ rest →
        vmmapFindMapSpaceAboveHint.search uaddr numPages rest ≠ 0 →
          Gap vm limit (vmmapFindMapSpaceAboveHint.search uaddr numPages rest)
            numPages := by
    intro rest
    induction rest with
    | nil => exact fun _ _ nonzero => absurd rfl nonzero
    | cons below rest inductionHypothesis =>
        intro done sorted nonzero
        cases rest with
        | nil => exact absurd rfl nonzero
        | cons above rest =>
            have ordered := noOverlap.ordered
            rw [sorted] at ordered
            obtain ⟨_, tail, _⟩ := List.pairwise_append.mp ordered
            have neighbours : below.endPage ≤ above.pageNum :=
              (List.pairwise_cons.mp tail).1 above (by simp)
            have aboveIn : above ∈ vm :=
              (vmmapMakeSorted_perm vm).mem_iff.mp (by rw [sorted]; simp)
            have aboveBelow := within above aboveIn
            unfold vmmapFindMapSpaceAboveHint.search at nonzero ⊢
            simp only at nonzero ⊢
            generalize chosen :
              (if below.endPage ≤ uaddr / 4096 ∧ uaddr / 4096 < above.pageNum
                then uaddr / 4096 else below.endPage) = endPage at nonzero ⊢
            have bounds :
                below.endPage ≤ endPage ∧ endPage ≤ above.pageNum := by
              rw [← chosen]
              split
              next inside => exact ⟨inside.1, Nat.le_of_lt inside.2⟩
              next => exact ⟨le_refl _, neighbours⟩
            split at nonzero
            next enough =>
              rw [if_pos enough]
              simp only [VmmapEntry.endPage] at aboveBelow
              rw [sub64_of_le (by omega) bounds.2] at enough
              exact gap_between noOverlap within sorted bounds.1 (by omega)
            next notEnough =>
              rw [if_neg notEnough]
              apply inductionHypothesis (done ++ [below]) _ nonzero
              rw [sorted]
              simp
  exact loop _ [] rfl found

end Searching

end Mcfi
