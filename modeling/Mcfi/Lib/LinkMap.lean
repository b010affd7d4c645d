import Mathlib.Logic.Relation
import Mcfi.Lib.OrdDict

/-!
# Finite relations and undirected graphs as dictionaries of key sets

A `LinkMap` sends each left end to the set of its right ends.  Linking only
ever adds.  A graph is a `LinkMap` from a type to itself; it is undirected when
each link has its converse, and two vertices are connected when a path of links
leads from one to the other.
-/

/-- A finite relation: each left end with the set of its right ends. -/
abbrev LinkMap (α β : Type) := OrdDict α (KeySet β)

namespace LinkMap

variable {α β κ : Type}

section Links

variable [DecidableEq α] [DecidableEq β]

/-- Two ends are linked when the right one is in the left one's set. -/
def Linked (links : LinkMap α β) (left : α) (right : β) : Prop :=
  ∃ targets, links.find left = some targets ∧ right ∈ targets

/-- The right ends linked to a left end, in insertion order. -/
def targets (links : LinkMap α β) (left : α) : List β :=
  match links.find left with
  | none => []
  | some rights => rights.keys

/-- Add one link, creating the left end when it is new. -/
def link (links : LinkMap α β) (left : α) (right : β) : LinkMap α β :=
  (links.insertNew left ∅).modify left fun rights => rights.insertNew right ()

/-- Add the links of a list, one after the other. -/
def linkAll (links : LinkMap α β) (pairs : List (α × β)) : LinkMap α β :=
  pairs.foldl (fun acc pair => link acc pair.1 pair.2) links

instance (links : LinkMap α β) (left : α) (right : β) :
    Decidable (Linked links left right) :=
  decidable_of_iff (right ∈ links.targets left) (by
    unfold targets Linked
    cases links.find left <;> simp [OrdDict.mem_keys])

omit [DecidableEq β] in
theorem mem_targets
    {links : LinkMap α β} {left : α} {right : β} :
    right ∈ links.targets left ↔ Linked links left right := by
  unfold targets Linked
  cases links.find left <;> simp [OrdDict.mem_keys]

omit [DecidableEq β] in
@[simp] theorem not_linked_empty (left : α) (right : β) :
    ¬ Linked (∅ : LinkMap α β) left right := by
  simp [Linked]

omit [DecidableEq β] in
/-- The left end of a link is a key. -/
theorem mem_of_linked
    {links : LinkMap α β} {left : α} {right : β}
    (linked : Linked links left right) :
    left ∈ links := by
  obtain ⟨rights, found, _⟩ := linked
  exact OrdDict.mem_of_find found

@[simp] theorem mem_link
    {links : LinkMap α β} {left query : α} {right : β} :
    query ∈ link links left right ↔ query = left ∨ query ∈ links := by
  simp [link]

/-- Adding a link adds that link and nothing else. -/
@[simp] theorem linked_link
    {links : LinkMap α β} {left query : α} {right other : β} :
    Linked (link links left right) query other ↔
      (query = left ∧ other = right) ∨ Linked links query other := by
  unfold Linked link
  rw [OrdDict.find_modify, OrdDict.find_insertNew]
  by_cases sameLeft : query = left
  · subst sameLeft
    cases found : links.find query with
    | none =>
        have absent := OrdDict.find_eq_none.mp found
        simp [absent]
    | some rights =>
        have present := OrdDict.mem_of_find found
        simp [present]
  · simp [sameLeft]

/-- Adding every link of a list adds exactly those links. -/
@[simp] theorem linked_linkAll
    {pairs : List (α × β)} {links : LinkMap α β} {left : α} {right : β} :
    Linked (linkAll links pairs) left right ↔
      (left, right) ∈ pairs ∨ Linked links left right := by
  unfold linkAll
  induction pairs generalizing links with
  | nil =>
      simp
  | cons pair rest inductionHypothesis =>
      rw [List.foldl_cons, inductionHypothesis, linked_link, List.mem_cons,
        Prod.ext_iff]
      tauto

/-- Every key has a link. -/
def Populated (links : LinkMap α β) : Prop :=
  ∀ left ∈ links, ∃ right, Linked links left right

omit [DecidableEq β] in
theorem populated_empty : Populated (∅ : LinkMap α β) :=
  fun left inEmpty => (OrdDict.not_mem_empty left inEmpty).elim

/-- Linking creates no key without a link. -/
theorem Populated.link
    {links : LinkMap α β} (populated : Populated links)
    (left : α) (right : β) : Populated (link links left right) := by
  intro query member
  rcases mem_link.mp member with rfl | old
  · exact ⟨right, linked_link.mpr (Or.inl ⟨rfl, rfl⟩)⟩
  · obtain ⟨other, linked⟩ := populated query old
    exact ⟨other, linked_link.mpr (Or.inr linked)⟩

theorem Populated.linkAll
    {links : LinkMap α β} (populated : Populated links)
    (pairs : List (α × β)) : Populated (linkAll links pairs) := by
  unfold LinkMap.linkAll
  induction pairs generalizing links with
  | nil => exact populated
  | cons pair rest inductionHypothesis =>
      exact inductionHypothesis (populated.link pair.1 pair.2)

end Links

section Graphs

variable [DecidableEq κ]

/-- Add an undirected edge. -/
def join (graph : LinkMap κ κ) (first second : κ) : LinkMap κ κ :=
  link (link graph first second) second first

/-- Add the undirected edges of a list, one after the other. -/
def joinAll (graph : LinkMap κ κ) (pairs : List (κ × κ)) : LinkMap κ κ :=
  pairs.foldl (fun acc pair => join acc pair.1 pair.2) graph

/-- Every link has its converse. -/
def Undirected (graph : LinkMap κ κ) : Prop :=
  ∀ ⦃first second⦄, Linked graph first second → Linked graph second first

/-- A path of links leads from one vertex to the other. -/
def Connected (graph : LinkMap κ κ) : κ → κ → Prop :=
  Relation.ReflTransGen (Linked graph)

/-- Two vertices of the graph in one connected component. -/
def SameComponent (graph : LinkMap κ κ) (first second : κ) : Prop :=
  first ∈ graph ∧ Connected graph first second

@[simp] theorem mem_join
    {graph : LinkMap κ κ} {first second query : κ} :
    query ∈ join graph first second ↔
      query = first ∨ query = second ∨ query ∈ graph := by
  simp only [join, mem_link]
  tauto

@[simp] theorem linked_join
    {graph : LinkMap κ κ} {first second left right : κ} :
    Linked (join graph first second) left right ↔
      (left = first ∧ right = second) ∨ (left = second ∧ right = first) ∨
        Linked graph left right := by
  simp only [join, linked_link]
  tauto

/-- Adding every edge of a list adds exactly those edges, both ways. -/
@[simp] theorem linked_joinAll
    {pairs : List (κ × κ)} {graph : LinkMap κ κ} {left right : κ} :
    Linked (joinAll graph pairs) left right ↔
      (left, right) ∈ pairs ∨ (right, left) ∈ pairs ∨
        Linked graph left right := by
  unfold joinAll
  induction pairs generalizing graph with
  | nil =>
      simp
  | cons pair rest inductionHypothesis =>
      rw [List.foldl_cons, inductionHypothesis, linked_join, List.mem_cons,
        List.mem_cons, Prod.ext_iff, Prod.ext_iff]
      tauto

theorem undirected_empty : Undirected (∅ : LinkMap κ κ) :=
  fun _ _ linked => (not_linked_empty _ _ linked).elim

/-- Adding an undirected edge keeps a graph undirected. -/
theorem Undirected.join
    {graph : LinkMap κ κ} (undirected : Undirected graph)
    (first second : κ) :
    Undirected (join graph first second) := by
  intro left right linked
  rw [linked_join] at linked ⊢
  rcases linked with forward | backward | old
  · exact Or.inr (Or.inl ⟨forward.2, forward.1⟩)
  · exact Or.inl ⟨backward.2, backward.1⟩
  · exact Or.inr (Or.inr (undirected old))

/-- Adding undirected edges keeps a graph undirected. -/
theorem Undirected.joinAll
    {graph : LinkMap κ κ} (undirected : Undirected graph)
    (pairs : List (κ × κ)) :
    Undirected (joinAll graph pairs) := by
  intro left right linked
  rw [linked_joinAll] at linked ⊢
  rcases linked with forward | backward | old
  · exact Or.inr (Or.inl forward)
  · exact Or.inl backward
  · exact Or.inr (Or.inr (undirected old))

/-- Adding undirected edges creates no vertex without an edge. -/
theorem Populated.joinAll
    {graph : LinkMap κ κ} (populated : Populated graph)
    (pairs : List (κ × κ)) : Populated (joinAll graph pairs) := by
  unfold LinkMap.joinAll
  induction pairs generalizing graph with
  | nil => exact populated
  | cons pair rest inductionHypothesis =>
      exact inductionHypothesis
        ((populated.link pair.1 pair.2).link pair.2 pair.1)

/-- In an undirected graph both ends of a link are vertices. -/
theorem Undirected.mem_right
    {graph : LinkMap κ κ} (undirected : Undirected graph)
    {first second : κ} (linked : Linked graph first second) :
    second ∈ graph :=
  mem_of_linked (undirected linked)

/-- Paths of an undirected graph can be walked backwards. -/
theorem Undirected.connected_symm
    {graph : LinkMap κ κ} (undirected : Undirected graph)
    {first second : κ} (connected : Connected graph first second) :
    Connected graph second first := by
  induction connected with
  | refl => exact Relation.ReflTransGen.refl
  | tail _ last inductionHypothesis =>
      exact Relation.ReflTransGen.head (undirected last) inductionHypothesis

/-- Everything connected to a vertex is a vertex. -/
theorem Undirected.mem_of_connected
    {graph : LinkMap κ κ} (undirected : Undirected graph)
    {first second : κ} (member : first ∈ graph)
    (connected : Connected graph first second) :
    second ∈ graph := by
  cases connected with
  | refl => exact member
  | tail _ last => exact undirected.mem_right last

/-- The first of two distinct connected values is a vertex. -/
theorem mem_of_connected_of_ne
    {graph : LinkMap κ κ} {first second : κ}
    (connected : Connected graph first second) (distinct : first ≠ second) :
    first ∈ graph := by
  rcases Relation.ReflTransGen.cases_head connected with same | ⟨_, step, _⟩
  · exact (distinct same).elim
  · exact mem_of_linked step

theorem connected_of_linked
    {graph : LinkMap κ κ} {first second : κ}
    (linked : Linked graph first second) :
    Connected graph first second :=
  Relation.ReflTransGen.single linked

theorem SameComponent.symm
    {graph : LinkMap κ κ} (undirected : Undirected graph)
    {first second : κ} (same : SameComponent graph first second) :
    SameComponent graph second first :=
  ⟨undirected.mem_of_connected same.1 same.2,
    undirected.connected_symm same.2⟩

theorem SameComponent.trans
    {graph : LinkMap κ κ} {first second third : κ}
    (left : SameComponent graph first second)
    (right : SameComponent graph second third) :
    SameComponent graph first third :=
  ⟨left.1, left.2.trans right.2⟩

/--
If each link of one graph is a path of another, so is each path of the first.
-/
theorem Connected.transport
    {small large : LinkMap κ κ}
    (carried : ∀ first second,
      Linked small first second → Connected large first second)
    {first second : κ} (connected : Connected small first second) :
    Connected large first second := by
  induction connected with
  | refl => exact Relation.ReflTransGen.refl
  | tail _ last inductionHypothesis =>
      exact inductionHypothesis.trans (carried _ _ last)

/--
If moreover each vertex of the small graph has an edge, and no edge is a loop, the
components of the small graph lie in those of the large one.
-/
theorem SameComponent.transport
    {small large : LinkMap κ κ} (populated : Populated small)
    (carried : ∀ first second, Linked small first second →
      first ≠ second ∧ Connected large first second)
    {first second : κ} (same : SameComponent small first second) :
    SameComponent large first second := by
  obtain ⟨other, linked⟩ := populated first same.1
  obtain ⟨distinct, connected⟩ := carried first other linked
  exact ⟨mem_of_connected_of_ne connected distinct,
    same.2.transport fun left right edge => (carried left right edge).2⟩

/-- A graph with all links of a populated one has its components. -/
theorem SameComponent.mono
    {small large : LinkMap κ κ} (populated : Populated small)
    (kept : ∀ first second, Linked small first second → Linked large first second)
    {first second : κ} (same : SameComponent small first second) :
    SameComponent large first second := by
  obtain ⟨other, linked⟩ := populated first same.1
  exact ⟨mem_of_linked (kept first other linked),
    same.2.transport fun left right edge => connected_of_linked (kept left right edge)⟩

/-- A set that contains a value and all links out of it contains its paths. -/
theorem Connected.mem_of_closed
    {graph : LinkMap κ κ} {motive : κ → Prop}
    (closed : ∀ first second,
      motive first → Linked graph first second → motive second)
    {first second : κ} (start : motive first)
    (connected : Connected graph first second) :
    motive second := by
  induction connected with
  | refl => exact start
  | tail _ last inductionHypothesis =>
      exact closed _ _ inductionHypothesis last

end Graphs

end LinkMap
