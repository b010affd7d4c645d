import Mathlib.Data.List.Nodup
import Mathlib.Logic.Function.Basic
import Mathlib.Tactic.Common

/-!
# Doubly linked chains

Links lead from each node to the next one and back to the one before; the node `0` is
no node.  A segment is a list of nodes that the links lead through, from the link that
leads to its first node to the link that its last node has.  A chain is a segment
between two null links.
-/

/-- The links of all nodes. -/
structure Links where
  next : Nat → Nat
  prev : Nat → Nat

namespace Links

/--
The links lead through the nodes: `head` leads to the first node, which leads back to
`before`; `last` is the last node, or `before`, and leads to `after`.
-/
def Segment (links : Links) : Nat → Nat → List Nat → Nat → Nat → Prop
  | before, head, [], last, after => head = after ∧ last = before
  | before, head, node :: rest, last, after =>
      head = node ∧ node ≠ 0 ∧ links.prev node = before ∧
        Segment links node (links.next node) rest last after

/-- The links lead from `head` through the nodes to `last`, and both ends are null. -/
def Chain (links : Links) (head : Nat) (nodes : List Nat) (last : Nat) : Prop :=
  links.Segment 0 head nodes last 0

/-- Put a node before the first one. -/
def pushFront (links : Links) (head node : Nat) : Links where
  next := Function.update links.next node head
  prev :=
    let alone := Function.update links.prev node 0
    if head ≠ 0 then Function.update alone head node else alone

/-- Put a node behind the last one. -/
def pushBack (links : Links) (last node : Nat) : Links where
  next := Function.update (Function.update links.next node 0) last node
  prev := Function.update links.prev node last

/-- Let the nodes around a node lead to each other. -/
def unlink (links : Links) (node : Nat) : Links where
  next :=
    if links.prev node ≠ 0 then
      Function.update links.next (links.prev node) (links.next node)
    else links.next
  prev :=
    if links.next node ≠ 0 then
      Function.update links.prev (links.next node) (links.prev node)
    else links.prev

/-- The links of a node are the same. -/
def SameAt (later links : Links) (node : Nat) : Prop :=
  later.next node = links.next node ∧ later.prev node = links.prev node

section Segments

variable {links later : Links} {before head last after node : Nat} {nodes : List Nat}

/-- A segment depends on the links of its nodes only. -/
theorem Segment.congr (segment : links.Segment before head nodes last after)
    (sameNext : ∀ node ∈ nodes, later.next node = links.next node)
    (samePrev : ∀ node ∈ nodes, later.prev node = links.prev node) :
    later.Segment before head nodes last after := by
  induction nodes generalizing before head with
  | nil => exact segment
  | cons node rest inductionHypothesis =>
      obtain ⟨isHead, notNull, back, segment⟩ := segment
      refine ⟨isHead, notNull, ?_, ?_⟩
      · rw [samePrev node (by simp)]
        exact back
      · rw [sameNext node (by simp)]
        exact inductionHypothesis segment
          (fun other listed => sameNext other (List.mem_cons_of_mem _ listed))
          (fun other listed => samePrev other (List.mem_cons_of_mem _ listed))

/-- A segment whose nodes have the same links. -/
theorem Segment.sameAt (segment : links.Segment before head nodes last after)
    (same : ∀ node ∈ nodes, later.SameAt links node) :
    later.Segment before head nodes last after :=
  segment.congr (fun node listed => (same node listed).1)
    (fun node listed => (same node listed).2)

/-- Two segments, one after the other. -/
theorem segment_append {front back : List Nat} :
    links.Segment before head (front ++ back) last after ↔
      ∃ middleLast middleHead, links.Segment before head front middleLast middleHead ∧
        links.Segment middleLast middleHead back last after := by
  induction front generalizing before head with
  | nil =>
      constructor
      · intro segment
        exact ⟨before, head, ⟨rfl, rfl⟩, segment⟩
      · rintro ⟨middleLast, middleHead, ⟨rfl, rfl⟩, segment⟩
        exact segment
  | cons node rest inductionHypothesis =>
      constructor
      · rintro ⟨isHead, notNull, back, segment⟩
        obtain ⟨middleLast, middleHead, first, second⟩ :=
          inductionHypothesis.mp segment
        exact ⟨middleLast, middleHead, ⟨isHead, notNull, back, first⟩, second⟩
      · rintro ⟨middleLast, middleHead, ⟨isHead, notNull, back, first⟩, second⟩
        exact ⟨isHead, notNull, back,
          inductionHypothesis.mpr ⟨middleLast, middleHead, first, second⟩⟩

/-- A chain starts at its first node. -/
theorem Chain.head_eq (chain : links.Chain head nodes last) : head = nodes.headD 0 := by
  cases nodes with
  | nil => exact chain.1
  | cons node rest => exact chain.1

/-- The first node of a chain leads to the second one. -/
theorem Chain.next_eq (chain : links.Chain head (node :: nodes) last) :
    links.next head = nodes.headD 0 := by
  obtain ⟨isHead, -, -, segment⟩ := chain
  rw [isHead]
  cases nodes with
  | nil => exact segment.1
  | cons second rest => exact segment.1

/-- No node of a segment is null. -/
theorem Segment.ne_zero (segment : links.Segment before head nodes last after)
    (listed : node ∈ nodes) : node ≠ 0 := by
  induction nodes generalizing before head with
  | nil => cases listed
  | cons first rest inductionHypothesis =>
      obtain ⟨isHead, notNull, back, segment⟩ := segment
      rcases List.mem_cons.mp listed with same | inRest
      · rw [same]
        exact notNull
      · exact inductionHypothesis segment inRest

/-- The last node of a segment that has one is one of its nodes. -/
theorem Segment.last_mem (segment : links.Segment before head nodes last after)
    (some : nodes ≠ []) : last ∈ nodes := by
  induction nodes generalizing before head with
  | nil => exact (some rfl).elim
  | cons first rest inductionHypothesis =>
      obtain ⟨isHead, notNull, back, segment⟩ := segment
      cases rest with
      | nil =>
          rw [segment.2]
          exact List.mem_singleton.mpr rfl
      | cons second rest =>
          exact List.mem_cons_of_mem _
            (inductionHypothesis segment (List.cons_ne_nil _ _))

/-- A chain is empty exactly when its first link is null. -/
theorem Chain.nil_iff (chain : links.Chain head nodes last) : nodes = [] ↔ head = 0 := by
  cases nodes with
  | nil =>
      refine iff_of_true rfl ?_
      exact chain.1
  | cons node rest =>
      obtain ⟨isHead, notNull, -⟩ := chain
      refine iff_of_false (List.cons_ne_nil _ _) ?_
      rw [isHead]
      exact notNull

/-- The last node of a segment may lead elsewhere. -/
theorem Segment.relink_last {target : Nat}
    (segment : links.Segment before head nodes last after) (some : nodes ≠ [])
    (distinct : nodes.Nodup) (leads : later.next last = target)
    (sameNext : ∀ node ∈ nodes, node ≠ last → later.next node = links.next node)
    (samePrev : ∀ node ∈ nodes, later.prev node = links.prev node) :
    later.Segment before head nodes last target := by
  induction nodes generalizing before head with
  | nil => exact (some rfl).elim
  | cons node rest inductionHypothesis =>
      obtain ⟨isHead, notNull, back, segment⟩ := segment
      obtain ⟨notInRest, distinctRest⟩ := List.nodup_cons.mp distinct
      refine ⟨isHead, notNull, (samePrev node (by simp)).trans back, ?_⟩
      cases rest with
      | nil =>
          have isLast : last = node := segment.2
          rw [← isLast, leads]
          exact ⟨rfl, rfl⟩
      | cons second rest =>
          have notLast : node ≠ last := by
            rintro rfl
            exact notInRest (segment.last_mem (List.cons_ne_nil _ _))
          rw [sameNext node (by simp) notLast]
          exact inductionHypothesis segment (List.cons_ne_nil _ _) distinctRest
            (fun other listed => sameNext other (List.mem_cons_of_mem _ listed))
            (fun other listed => samePrev other (List.mem_cons_of_mem _ listed))

/-- The first node of a segment may lead back elsewhere. -/
theorem Segment.relink_first {target : Nat}
    (segment : links.Segment before head nodes last after) (some : nodes ≠ [])
    (distinct : nodes.Nodup) (leads : later.prev head = target)
    (sameNext : ∀ node ∈ nodes, later.next node = links.next node)
    (samePrev : ∀ node ∈ nodes, node ≠ head → later.prev node = links.prev node) :
    later.Segment target head nodes last after := by
  cases nodes with
  | nil => exact (some rfl).elim
  | cons node rest =>
      obtain ⟨isHead, notNull, -, segment⟩ := segment
      subst isHead
      refine ⟨rfl, notNull, leads, ?_⟩
      rw [sameNext head (by simp)]
      refine segment.congr
        (fun other listed => sameNext other (List.mem_cons_of_mem _ listed)) ?_
      intro other listed
      refine samePrev other (List.mem_cons_of_mem _ listed) ?_
      rintro rfl
      exact (List.nodup_cons.mp distinct).1 listed

/-- The link to a segment that has a node leads to its first one. -/
theorem Segment.head_mem (segment : links.Segment before head nodes last after)
    (some : nodes ≠ []) : head ∈ nodes := by
  cases nodes with
  | nil => exact (some rfl).elim
  | cons node rest =>
      rw [segment.1]
      exact List.mem_cons_self ..

/-- A segment without nodes leads on and back at once. -/
theorem Segment.last_eq (segment : links.Segment before head nodes last after)
    (empty : nodes = []) : last = before := by
  subst empty
  exact segment.2

/-- A node put before the first one. -/
theorem Chain.pushFront (chain : links.Chain head nodes last) (notNull : node ≠ 0)
    (fresh : node ∉ nodes) (distinct : nodes.Nodup) :
    (links.pushFront head node).Chain node (node :: nodes)
      (if head ≠ 0 then last else node) := by
  have others : ∀ other ∈ nodes, other ≠ node := by
    rintro other listed rfl
    exact fresh listed
  by_cases isNull : head = 0
  · have empty := chain.nil_iff.mpr isNull
    subst empty
    refine ⟨rfl, notNull, ?_, ?_, ?_⟩
    · simp only [Links.pushFront, isNull, ne_eq, not_true, if_false, Function.update_self]
    · simp only [Links.pushFront, Function.update_self, isNull]
    · rw [if_neg (not_not.mpr isNull)]
  · have some : nodes ≠ [] := fun empty => isNull (chain.nil_iff.mp empty)
    have notHead : node ≠ head := Ne.symm (others head (chain.head_mem some))
    rw [if_pos isNull]
    refine ⟨rfl, notNull, ?_, ?_⟩
    · simp only [Links.pushFront, ne_eq, isNull, not_false_eq_true, if_true,
        Function.update_of_ne notHead, Function.update_self]
    · simp only [Links.pushFront, Function.update_self]
      refine chain.relink_first some distinct ?_ ?_ ?_
      · simp only [ne_eq, isNull, not_false_eq_true, if_true, Function.update_self]
      · intro other listed
        exact Function.update_of_ne (others other listed) _ _
      · intro other listed notFirst
        simp only [ne_eq, isNull, not_false_eq_true, if_true,
          Function.update_of_ne notFirst, Function.update_of_ne (others other listed)]

/-- A node put behind the last one. -/
theorem Chain.pushBack (chain : links.Chain head nodes last) (some : nodes ≠ [])
    (notNull : node ≠ 0) (fresh : node ∉ nodes) (distinct : nodes.Nodup) :
    (links.pushBack last node).Chain head (nodes ++ [node]) node := by
  have others : ∀ other ∈ nodes, other ≠ node := by
    rintro other listed rfl
    exact fresh listed
  have notLast : node ≠ last := Ne.symm (others last (chain.last_mem some))
  refine segment_append.mpr ⟨last, node, ?_, rfl, notNull, ?_, ?_, rfl⟩
  · refine chain.relink_last some distinct ?_ ?_ ?_
    · simp only [Links.pushBack, Function.update_self]
    · intro other listed different
      simp only [Links.pushBack, Function.update_of_ne different,
        Function.update_of_ne (others other listed)]
    · intro other listed
      exact Function.update_of_ne (others other listed) _ _
  · simp only [Links.pushBack, Function.update_self]
  · simp only [Links.pushBack, Function.update_of_ne notLast, Function.update_self]

/-- The chain of the other nodes when a node is unlinked. -/
theorem Chain.unlink {front back : List Nat}
    (chain : links.Chain head (front ++ node :: back) last)
    (distinct : (front ++ node :: back).Nodup) :
    (links.unlink node).Chain (if links.prev node ≠ 0 then head else links.next node)
      (front ++ back) (if last = node then links.prev node else last) := by
  obtain ⟨middle, link, first, isNode, notNull, backLink, second⟩ :=
    segment_append.mp chain
  rw [isNode, ← backLink] at first
  obtain ⟨distinctFront, distinctNode, apart⟩ := List.nodup_append.mp distinct
  obtain ⟨notInBack, distinctBack⟩ := List.nodup_cons.mp distinctNode
  have notInFront : node ∉ front := fun listed => apart node listed node (by simp) rfl
  have backFirst : back ≠ [] → links.next node ∈ back := second.head_mem
  have frontLast : front ≠ [] → links.prev node ∈ front := first.last_mem
  have inFront : links.prev node ≠ 0 ↔ front ≠ [] :=
    ⟨fun notFirst empty => notFirst (first.last_eq empty),
      fun some => first.ne_zero (frontLast some)⟩
  have inBack : links.next node ≠ 0 ↔ back ≠ [] := by
    refine ⟨?_, fun some => second.ne_zero (backFirst some)⟩
    rintro notLast rfl
    exact notLast second.1
  have frontPart : (links.unlink node).Segment 0
      (if links.prev node ≠ 0 then head else links.next node) front (links.prev node)
      (links.next node) := by
    by_cases empty : front = []
    · have isFirst : links.prev node = 0 := first.last_eq empty
      subst empty
      rw [if_neg (not_not.mpr isFirst)]
      exact ⟨rfl, isFirst⟩
    · rw [if_pos (inFront.mpr empty)]
      refine first.relink_last empty distinctFront ?_ ?_ ?_
      · simp only [Links.unlink, if_pos (inFront.mpr empty), Function.update_self]
      · intro other listed different
        simp only [Links.unlink, if_pos (inFront.mpr empty),
          Function.update_of_ne different]
      · intro other listed
        by_cases atEnd : back = []
        · simp only [Links.unlink, if_neg (inBack.not.mpr (not_not.mpr atEnd))]
        · have different : other ≠ links.next node :=
            apart other listed _ (List.mem_cons_of_mem _ (backFirst atEnd))
          simp only [Links.unlink, if_pos (inBack.mpr atEnd),
            Function.update_of_ne different]
  have backPart : (links.unlink node).Segment (links.prev node) (links.next node) back
      (if last = node then links.prev node else last) 0 := by
    by_cases empty : back = []
    · subst empty
      rw [if_pos second.2]
      exact ⟨second.1, rfl⟩
    · have notLast : last ≠ node := by
        rintro rfl
        exact notInBack (second.last_mem empty)
      rw [if_neg notLast]
      refine second.relink_first empty distinctBack ?_ ?_ ?_
      · simp only [Links.unlink, if_pos (inBack.mpr empty), Function.update_self]
      · intro other listed
        by_cases atStart : front = []
        · simp only [Links.unlink, if_neg (inFront.not.mpr (not_not.mpr atStart))]
        · have different : other ≠ links.prev node := by
            rintro rfl
            exact apart _ (frontLast atStart) _ (List.mem_cons_of_mem _ listed) rfl
          simp only [Links.unlink, if_pos (inFront.mpr atStart),
            Function.update_of_ne different]
      · intro other listed different
        simp only [Links.unlink, if_pos (inBack.mpr empty),
          Function.update_of_ne different]
  exact segment_append.mpr ⟨_, _, frontPart, backPart⟩

/-- What a node's links are in a chain that it is first in. -/
theorem Chain.prev_eq_zero_iff {front back : List Nat}
    (chain : links.Chain head (front ++ node :: back) last) :
    links.prev node = 0 ↔ front = [] := by
  obtain ⟨middle, link, first, isNode, notNull, backLink, second⟩ :=
    segment_append.mp chain
  rw [← backLink] at first
  refine ⟨fun isFirst => ?_, fun empty => first.last_eq empty⟩
  by_contra some
  exact first.ne_zero (first.last_mem some) isFirst

/-- What a node's links are in a chain that it is last in. -/
theorem Chain.next_eq_zero_iff {front back : List Nat}
    (chain : links.Chain head (front ++ node :: back) last) :
    links.next node = 0 ↔ back = [] := by
  obtain ⟨middle, link, first, isNode, notNull, backLink, second⟩ :=
    segment_append.mp chain
  refine ⟨fun isLast => ?_, ?_⟩
  · by_contra some
    exact second.ne_zero (second.head_mem some) isLast
  · rintro rfl
    exact second.1

/-- The neighbours of a node of a chain are nodes of the chain, or null. -/
theorem Chain.neighbours {front back : List Nat}
    (chain : links.Chain head (front ++ node :: back) last) :
    (links.prev node = 0 ∨ links.prev node ∈ front) ∧
      (links.next node = 0 ∨ links.next node ∈ back) := by
  obtain ⟨middle, link, first, isNode, notNull, backLink, second⟩ :=
    segment_append.mp chain
  rw [← backLink] at first
  constructor
  · by_cases empty : front = []
    · exact Or.inl (first.last_eq empty)
    · exact Or.inr (first.last_mem empty)
  · by_cases empty : back = []
    · subst empty
      exact Or.inl second.1
    · exact Or.inr (second.head_mem empty)

/-- The links off the neighbours of an unlinked node stay. -/
theorem unlink_sameAt {other : Nat} (notPrev : links.prev node ≠ 0 → other ≠ links.prev node)
    (notNext : links.next node ≠ 0 → other ≠ links.next node) :
    (links.unlink node).SameAt links other := by
  constructor
  · by_cases isFirst : links.prev node = 0
    · simp only [Links.unlink, isFirst, ne_eq, not_true, if_false]
    · simp only [Links.unlink, isFirst, ne_eq, not_false_eq_true, if_true,
        Function.update_of_ne (notPrev isFirst)]
  · by_cases isLast : links.next node = 0
    · simp only [Links.unlink, isLast, ne_eq, not_true, if_false]
    · simp only [Links.unlink, isLast, ne_eq, not_false_eq_true, if_true,
        Function.update_of_ne (notNext isLast)]

/-- The links off a chain stay when one of its nodes is unlinked. -/
theorem Chain.unlink_sameAt {front back : List Nat} {other : Nat}
    (chain : links.Chain head (front ++ node :: back) last)
    (notListed : other ∉ front ++ node :: back) :
    (links.unlink node).SameAt links other := by
  obtain ⟨prevCases, nextCases⟩ := chain.neighbours
  refine Links.unlink_sameAt ?_ ?_
  · rintro notNull rfl
    rcases prevCases with isNull | inFront
    · exact notNull isNull
    · exact notListed (List.mem_append_left _ inFront)
  · rintro notNull rfl
    rcases nextCases with isNull | inBack
    · exact notNull isNull
    · exact notListed (List.mem_append_right _ (List.mem_cons_of_mem _ inBack))

/-- The link to a chain leads to a node exactly when no node is before it. -/
theorem Chain.head_eq_iff {front back : List Nat}
    (chain : links.Chain head (front ++ node :: back) last)
    (distinct : (front ++ node :: back).Nodup) : head = node ↔ links.prev node = 0 := by
  rw [chain.prev_eq_zero_iff]
  cases front with
  | nil => exact iff_of_true chain.1 rfl
  | cons first rest =>
      refine iff_of_false ?_ (List.cons_ne_nil _ _)
      intro isNode
      rw [chain.1] at isNode
      have notInRest := (List.nodup_cons.mp distinct).1
      rw [isNode] at notInRest
      exact notInRest (by simp)

/-- The links off a chain that a node is put before stay. -/
theorem pushFront_sameAt {other : Nat} (notNode : other ≠ node) (notHead : other ≠ head) :
    (links.pushFront head node).SameAt links other := by
  refine ⟨Function.update_of_ne notNode _ _, ?_⟩
  by_cases isNull : head = 0
  · simp only [Links.pushFront, isNull, ne_eq, not_true, if_false,
      Function.update_of_ne notNode]
  · simp only [Links.pushFront, isNull, ne_eq, not_false_eq_true, if_true,
      Function.update_of_ne notHead, Function.update_of_ne notNode]

/-- The links off the last node of a chain that a node is put behind stay. -/
theorem pushBack_sameAt {other : Nat} (notNode : other ≠ node) (notLast : other ≠ last) :
    (links.pushBack last node).SameAt links other := by
  unfold Links.pushBack
  constructor
  · simp only [Function.update_of_ne notLast, Function.update_of_ne notNode]
  · exact Function.update_of_ne notNode _ _

end Segments

end Links
