import Mathlib.Algebra.GroupWithZero.Nat
import Mathlib.Data.List.Pairwise
import Mcfi.Kv

namespace Mcfi

open LinkMap

/-!
# The adjacency-list graphs of `graph.h`

A graph is a hash table from vertices to hash tables of neighbours.  The
component functions are a queue-driven search that shares one set of explored
vertices.  On an undirected graph they return the connected components, each
once, and never trip the assertion that a queued key is a vertex.
-/

variable {κ : Type} [DecidableEq κ]

/-- `g_add_vertex`. -/
def gAddVertex (graph : LinkMap κ κ) (vertex : κ) : LinkMap κ κ :=
  graph.insertNew vertex ∅

/-- `g_add_directed_edge`, for the graphs whose two sides may differ. -/
def gAddDirectedEdge {α β : Type} [DecidableEq α] [DecidableEq β]
    (graph : LinkMap α β) (left : α) (right : β) : LinkMap α β :=
  graph.link left right

/-- `g_add_edge`. -/
def gAddEdge (graph : LinkMap κ κ) (first second : κ) : LinkMap κ κ :=
  graph.join first second

/-- A loop that calls `g_add_edge` for each pair of a list. -/
def gAddEdges (graph : LinkMap κ κ) (pairs : List (κ × κ)) : LinkMap κ κ :=
  graph.joinAll pairs

/-- `g_directed_edge_in`. -/
def gDirectedEdgeIn {α β : Type} [DecidableEq α] [DecidableEq β]
    (graph : LinkMap α β) (left : α) (right : β) : Bool :=
  decide (graph.Linked left right)

/-- `g_del_vertex`. -/
def gDelVertex {α β : Type} [DecidableEq α]
    (graph : LinkMap α β) (vertex : α) : LinkMap α β :=
  graph.erase vertex

/-- The state of `g_bfs`: the queue, the result nodes and the explored set. -/
structure BfsState (κ : Type) where
  queue : List κ
  found : KeySet κ
  explored : KeySet κ

/-- `g_bfs`, the body of the loop over the adjacent vertices. -/
def bfsDiscover (state : BfsState κ) (key : κ) : BfsState κ :=
  if key ∈ state.explored then
    state
  else
    { queue := state.queue ++ [key]
      found := state.found.insertNew key ()
      explored := state.explored.insertNew key () }

/-- `g_bfs`, the loop over the queue. -/
def bfsLoop (graph : LinkMap κ κ) : Nat → BfsState κ → Rt (BfsState κ)
  | 0, state =>
      match state.queue with
      | [] => .ok state
      | _ :: _ => .error (.diverged "g_bfs")
  | fuel + 1, state =>
      match state.queue with
      | [] => .ok state
      | front :: rest =>
          match dictFind graph front with
          | none => .error (.check "g_bfs")
          | some adjacent =>
              bfsLoop graph fuel
                (adjacent.keys.foldl bfsDiscover { state with queue := rest })

/-- No key is queued twice, so this many rounds empty the queue. -/
def bfsFuel (graph : LinkMap κ κ) : Nat :=
  1 + graph.keys.length +
    (graph.entries.map fun entry => entry.2.keys.length).sum

/-- `g_bfs`: the vertices found, and the explored set afterwards. -/
def gBfs (graph : LinkMap κ κ) (start : κ) (explored : KeySet κ) :
    Rt (KeySet κ × KeySet κ) := do
  let final ← bfsLoop graph (bfsFuel graph)
    { queue := [start]
      found := (∅ : KeySet κ).insertNew start ()
      explored := explored.insertNew start () }
  return (final.found, final.explored)

/-- `g_get_lcc`, the body of the loop over the vertices. -/
def lccVisit (graph : LinkMap κ κ)
    (state : List (KeySet κ) × KeySet κ) (vertex : κ) :
    Rt (List (KeySet κ) × KeySet κ) :=
  if vertex ∈ state.2 then
    .ok state
  else do
    let (component, explored) ← gBfs graph vertex state.2
    return (state.1 ++ [component], explored)

/-- `g_get_lcc`. -/
def gGetLcc (graph : LinkMap κ κ) : Rt (List (KeySet κ)) := do
  let (components, _) ← graph.keys.foldlM (lccVisit graph) ([], ∅)
  return components

/-- `g_transitive_closure`, given the components. -/
def closureOfComponents (components : List (KeySet κ)) : LinkMap κ κ :=
  components.foldl (fun closure component =>
    component.keys.foldl (fun closure vertex =>
      (gAddVertex closure vertex).modify vertex fun _ => component) closure) ∅

/-- `g_transitive_closure`. -/
def gTransitiveClosure (graph : LinkMap κ κ) : Rt (LinkMap κ κ) := do
  let components ← gGetLcc graph
  return closureOfComponents components

/-- `g_add_cc_to_g`: link the first key to each other key. -/
def gAddCcToG (graph : LinkMap κ κ) (component : KeySet κ) : LinkMap κ κ :=
  match component.keys with
  | [] => graph
  | first :: rest => gAddEdges graph (rest.map fun key => (first, key))

section Search

/-- What holds of the search from `start`, begun with the explored set `before`. -/
structure BfsSound
    (graph : LinkMap κ κ) (start : κ) (before : KeySet κ)
    (state : BfsState κ) : Prop where
  exploredIff : ∀ key,
    key ∈ state.explored ↔ key ∈ before ∨ key ∈ state.found
  queueFound : ∀ key ∈ state.queue, key ∈ state.found
  foundConnected : ∀ key ∈ state.found, Connected graph start key

/--
What holds between two rounds of the outer loop: only queued vertices may have
neighbours that are not explored.
-/
structure BfsInvariant
    (graph : LinkMap κ κ) (start : κ) (before : KeySet κ)
    (state : BfsState κ) : Prop extends BfsSound graph start before state where
  startFound : start ∈ state.found
  doneClosed : ∀ key ∈ state.found, key ∉ state.queue →
    ∀ next, Linked graph key next → next ∈ state.explored

/-- The vertices that are not explored yet. -/
def unexplored (graph : LinkMap κ κ) (state : BfsState κ) : List κ :=
  graph.keys.filter fun key => key ∉ state.explored

/-- The rounds the search may still need. -/
def bfsPotential (graph : LinkMap κ κ) (state : BfsState κ) : Nat :=
  state.queue.length + (unexplored graph state).length

/-- Exploring an unexplored vertex makes the unexplored list shorter. -/
private theorem unexplored_insert
    {graph : LinkMap κ κ} {explored : KeySet κ} {key : κ}
    (vertex : key ∈ graph) (fresh : key ∉ explored) :
    (graph.keys.filter fun other => other ∉ explored.insertNew key ()).length +
        1 ≤
      (graph.keys.filter fun other => other ∉ explored).length := by
  have split :
      (graph.keys.filter fun other => other ∉ explored.insertNew key ()) =
        (graph.keys.filter fun other => other ∉ explored).erase key := by
    rw [(graph.keys_nodup.filter _).erase_eq_filter, List.filter_filter]
    apply List.filter_congr
    intro other _
    simp [OrdDict.mem_insertNew, not_or, bne, BEq.beq]
  have member : key ∈ graph.keys.filter fun other => other ∉ explored := by
    simpa using ⟨OrdDict.mem_keys.mpr vertex, fresh⟩
  rw [split, List.length_erase_of_mem member]
  have positive := List.length_pos_of_mem member
  omega

/-- What discovering some neighbours adds to a state of the search. -/
structure BfsGrows
    (graph : LinkMap κ κ) (adjacent : List κ)
    (state next : BfsState κ) : Prop where
  exploredKeys : ∀ key,
    key ∈ next.explored ↔ key ∈ adjacent ∨ key ∈ state.explored
  newQueued : ∀ key ∈ next.found, key ∉ next.queue →
    key ∈ state.found ∧ key ∉ state.queue
  foundKept : ∀ key ∈ state.found, key ∈ next.found
  potential : bfsPotential graph next ≤ bfsPotential graph state

/-- Discovering one neighbour. -/
private theorem bfsDiscover_spec
    {graph : LinkMap κ κ} (undirected : Undirected graph)
    {start front key : κ} {before : KeySet κ} {state : BfsState κ}
    (linked : Linked graph front key)
    (reached : Connected graph start front)
    (sound : BfsSound graph start before state) :
    BfsSound graph start before (bfsDiscover state key) ∧
      BfsGrows graph [key] state (bfsDiscover state key) := by
  unfold bfsDiscover
  split
  next known =>
    refine ⟨sound, ⟨?_, fun _ found notQueued => ⟨found, notQueued⟩,
      fun _ found => found, Nat.le_refl _⟩⟩
    intro other
    rw [List.mem_singleton]
    constructor
    · exact Or.inr
    · rintro (rfl | old)
      · exact known
      · exact old
  next fresh =>
    have vertex : key ∈ graph := undirected.mem_right linked
    refine ⟨⟨?_, ?_, ?_⟩, ⟨?_, ?_, ?_, ?_⟩⟩
    · intro other
      simp only [OrdDict.mem_insertNew, sound.exploredIff]
      tauto
    · intro other queued
      rw [OrdDict.mem_insertNew]
      rcases List.mem_append.mp queued with old | new
      · exact Or.inr (sound.queueFound other old)
      · exact Or.inl (List.mem_singleton.mp new)
    · intro other found
      rcases OrdDict.mem_insertNew.mp found with rfl | old
      · exact reached.tail linked
      · exact sound.foundConnected other old
    · intro other
      rw [OrdDict.mem_insertNew, List.mem_singleton]
    · intro other found notQueued
      rw [List.mem_append, List.mem_singleton, not_or] at notQueued
      exact ⟨(OrdDict.mem_insertNew.mp found).resolve_left notQueued.2,
        notQueued.1⟩
    · exact fun other found => OrdDict.mem_insertNew.mpr (Or.inr found)
    · have shorter := unexplored_insert vertex fresh
      simp only [bfsPotential, unexplored, List.length_append,
        List.length_singleton]
      omega

/-- Discovering the neighbours of a vertex one after the other. -/
private theorem foldl_bfsDiscover_spec
    {graph : LinkMap κ κ} (undirected : Undirected graph)
    {start front : κ} {before : KeySet κ}
    (reached : Connected graph start front)
    (adjacent : List κ) (state : BfsState κ)
    (linked : ∀ key ∈ adjacent, Linked graph front key)
    (sound : BfsSound graph start before state) :
    BfsSound graph start before (adjacent.foldl bfsDiscover state) ∧
      BfsGrows graph adjacent state (adjacent.foldl bfsDiscover state) := by
  induction adjacent generalizing state with
  | nil =>
      exact ⟨sound, ⟨by simp, fun _ found notQueued => ⟨found, notQueued⟩,
        fun _ found => found, Nat.le_refl _⟩⟩
  | cons key rest inductionHypothesis =>
      obtain ⟨firstSound, firstGrows⟩ :=
        bfsDiscover_spec undirected (linked key (by simp)) reached sound
      obtain ⟨restSound, restGrows⟩ :=
        inductionHypothesis (bfsDiscover state key)
          (fun other member => linked other (List.mem_cons_of_mem _ member))
          firstSound
      refine ⟨restSound, ⟨?_, ?_, ?_, ?_⟩⟩
      · intro other
        simp only [List.foldl_cons, restGrows.exploredKeys,
          firstGrows.exploredKeys, List.mem_cons, List.not_mem_nil]
        tauto
      · intro other found notQueued
        obtain ⟨foundFirst, notQueuedFirst⟩ :=
          restGrows.newQueued other found notQueued
        exact firstGrows.newQueued other foundFirst notQueuedFirst
      · exact fun other found =>
          restGrows.foundKept other (firstGrows.foundKept other found)
      · exact Nat.le_trans restGrows.potential firstGrows.potential

/-- The search ends with an empty queue, within its fuel. -/
theorem bfsLoop_ok
    {graph : LinkMap κ κ} (undirected : Undirected graph)
    {start : κ} {before : KeySet κ} (startVertex : start ∈ graph)
    (fuel : Nat) (state : BfsState κ)
    (invariant : BfsInvariant graph start before state)
    (enough : bfsPotential graph state ≤ fuel) :
    ∃ final, bfsLoop graph fuel state = .ok final ∧
      final.queue = [] ∧ BfsInvariant graph start before final := by
  induction fuel generalizing state with
  | zero =>
      have empty : state.queue = [] := by
        unfold bfsPotential at enough
        exact List.length_eq_zero_iff.mp (by omega)
      exact ⟨state, by simp [bfsLoop, empty], empty, invariant⟩
  | succ fuel inductionHypothesis =>
      cases shape : state.queue with
      | nil =>
          exact ⟨state, by simp [bfsLoop, shape], shape, invariant⟩
      | cons front rest =>
          have frontFound : front ∈ state.found :=
            invariant.queueFound front (by simp [shape])
          have frontReached := invariant.foundConnected front frontFound
          have frontVertex : front ∈ graph :=
            undirected.mem_of_connected startVertex frontReached
          obtain ⟨adjacent, located⟩ := OrdDict.exists_find_of_mem frontVertex
          have linkedIff : ∀ key,
              key ∈ adjacent.keys ↔ Linked graph front key := by
            intro key
            constructor
            · exact fun member => ⟨adjacent, located, member⟩
            · rintro ⟨other, otherLocated, member⟩
              rw [located] at otherLocated
              cases otherLocated
              exact member
          obtain ⟨nextSound, grows⟩ :=
            foldl_bfsDiscover_spec undirected frontReached
              adjacent.keys { state with queue := rest }
              (fun key member => (linkedIff key).mp member)
              ⟨invariant.exploredIff,
                fun key queued =>
                  invariant.queueFound key (by simp [shape, queued]),
                invariant.foundConnected⟩
          generalize finalShape :
            adjacent.keys.foldl bfsDiscover { state with queue := rest } =
              next at *
          have nextInvariant : BfsInvariant graph start before next := by
            refine ⟨nextSound,
              grows.foundKept start invariant.startFound, ?_⟩
            intro key found notQueued later link
            rw [grows.exploredKeys]
            obtain ⟨oldFound, notInRest⟩ :=
              grows.newQueued key found notQueued
            by_cases isFront : key = front
            · subst isFront
              exact Or.inl ((linkedIff later).mpr link)
            · have notInQueue : key ∉ state.queue := by
                rw [shape]
                simpa [isFront] using notInRest
              exact Or.inr
                (invariant.doneClosed key oldFound notInQueue later link)
          have lessPotential : bfsPotential graph next ≤ fuel := by
            have potential := grows.potential
            simp only [bfsPotential, shape, List.length_cons, unexplored]
              at enough potential ⊢
            omega
          obtain ⟨final, runs, empty, finalInvariant⟩ :=
            inductionHypothesis next nextInvariant lessPotential
          refine ⟨final, ?_, empty, finalInvariant⟩
          rw [bfsLoop, shape]
          simp only [dictFind, located, finalShape, runs]

/--
`g_bfs` from an unexplored vertex finds exactly the vertices connected to it,
when the explored set is closed under links.
-/
theorem gBfs_ok
    {graph : LinkMap κ κ} (undirected : Undirected graph)
    {start : κ} {before : KeySet κ} (startVertex : start ∈ graph)
    (startNew : start ∉ before)
    (closed : ∀ key ∈ before, ∀ next, Linked graph key next → next ∈ before) :
    ∃ component explored,
      gBfs graph start before = .ok (component, explored) ∧
        (∀ key, key ∈ component ↔ Connected graph start key) ∧
        (∀ key, key ∈ explored ↔ key ∈ before ∨ key ∈ component) := by
  have initial : BfsInvariant graph start before
      { queue := [start]
        found := (∅ : KeySet κ).insertNew start ()
        explored := before.insertNew start () } := by
    refine ⟨⟨?_, ?_, ?_⟩, ?_, ?_⟩
    · intro key
      simp [or_comm]
    · intro key queued
      simpa using queued
    · intro key found
      have same : key = start := by simpa using found
      rw [same]
      exact Relation.ReflTransGen.refl
    · simp
    · intro key found notQueued
      simp_all
  have enough : bfsPotential graph
      { queue := [start]
        found := (∅ : KeySet κ).insertNew start ()
        explored := before.insertNew start () } ≤ bfsFuel graph := by
    have fewer := List.length_filter_le
      (fun key => decide (key ∉ before.insertNew start ())) graph.keys
    simp only [bfsPotential, bfsFuel, unexplored, List.length_singleton]
    omega
  obtain ⟨final, runs, empty, invariant⟩ :=
    bfsLoop_ok undirected startVertex (bfsFuel graph) _ initial enough
  refine ⟨final.found, final.explored, ?_, ?_, invariant.exploredIff⟩
  · simp only [gBfs, runs]
    rfl
  · intro key
    constructor
    · exact invariant.foundConnected key
    · intro connected
      refine connected.mem_of_closed
        (motive := fun other => other ∈ final.found) ?_ invariant.startFound
      intro first second found link
      have seen := invariant.doneClosed first found (by simp [empty])
        second link
      rcases (invariant.exploredIff second).mp seen with old | new
      · -- a link out of the explored set would lead back to the start
        have back : start ∈ before := by
          refine (undirected.connected_symm
            ((invariant.foundConnected first found).tail link)).mem_of_closed
              (motive := fun other => other ∈ before) ?_ old
          exact fun _ _ inside step => closed _ inside _ step
        exact (startNew back).elim
      · exact new

end Search

section Components

/-- Two sets have no key in common. -/
def Apart (first second : KeySet κ) : Prop :=
  ∀ key, key ∈ first → key ∉ second

instance : Std.Symm (Apart (κ := κ)) :=
  ⟨fun _ _ apart key inSecond inFirst => apart key inFirst inSecond⟩

/-- A list of vertex sets is the list of a graph's connected components. -/
structure IsComponents
    (graph : LinkMap κ κ) (components : List (KeySet κ)) : Prop where
  isComponent : ∀ component ∈ components,
    ∃ root ∈ graph, ∀ key, key ∈ component ↔ Connected graph root key
  disjoint : components.Pairwise Apart
  covers : ∀ key ∈ graph, ∃ component ∈ components, key ∈ component

/-- `g_get_lcc` returns the connected components of an undirected graph. -/
theorem gGetLcc_ok
    {graph : LinkMap κ κ} (undirected : Undirected graph) :
    ∃ components, gGetLcc graph = .ok components ∧
      IsComponents graph components := by
  -- what the fold has done after a prefix of the vertices
  have visit : ∀ (vertices : List κ) (state : List (KeySet κ) × KeySet κ),
      (∀ key ∈ vertices, key ∈ graph) →
      (∀ component ∈ state.1,
        ∃ root ∈ graph, ∀ key, key ∈ component ↔ Connected graph root key) →
      state.1.Pairwise Apart →
      (∀ key, key ∈ state.2 ↔ ∃ component ∈ state.1, key ∈ component) →
      ∃ final, vertices.foldlM (lccVisit graph) state = .ok final ∧
        (∀ component ∈ final.1,
          ∃ root ∈ graph, ∀ key, key ∈ component ↔ Connected graph root key) ∧
        final.1.Pairwise Apart ∧
        (∀ key, key ∈ vertices ∨ key ∈ state.2 →
          ∃ component ∈ final.1, key ∈ component) := by
    intro vertices
    induction vertices with
    | nil =>
        intro state _ isComponent disjoint exploredIff
        refine ⟨state, rfl, isComponent, disjoint, ?_⟩
        rintro key (inNil | explored)
        · exact (List.not_mem_nil inNil).elim
        · exact (exploredIff key).mp explored
    | cons vertex rest inductionHypothesis =>
        intro state vertices isComponent disjoint exploredIff
        have restVertices : ∀ key ∈ rest, key ∈ graph :=
          fun key member => vertices key (List.mem_cons_of_mem _ member)
        by_cases known : vertex ∈ state.2
        · obtain ⟨final, runs, finalComponent, finalDisjoint, covers⟩ :=
            inductionHypothesis state restVertices isComponent disjoint
              exploredIff
          refine ⟨final, ?_, finalComponent, finalDisjoint, ?_⟩
          · rw [List.foldlM_cons, bind_eq_ok]
            exact ⟨state, by simp [lccVisit, known], runs⟩
          · rintro key (member | explored)
            · rcases List.mem_cons.mp member with rfl | inRest
              · exact covers key (Or.inr known)
              · exact covers key (Or.inl inRest)
            · exact covers key (Or.inr explored)
        · have closed : ∀ key ∈ state.2, ∀ next,
              Linked graph key next → next ∈ state.2 := by
            intro key explored next link
            obtain ⟨component, listed, inComponent⟩ :=
              (exploredIff key).mp explored
            obtain ⟨root, _, connectedIff⟩ := isComponent component listed
            refine (exploredIff next).mpr ⟨component, listed, ?_⟩
            exact (connectedIff next).mpr
              (((connectedIff key).mp inComponent).tail link)
          have isVertex : vertex ∈ graph := vertices vertex (by simp)
          obtain ⟨component, explored, searched, connectedIff, grown⟩ :=
            gBfs_ok undirected isVertex known closed
          obtain ⟨final, runs, finalComponent, finalDisjoint, covers⟩ :=
            inductionHypothesis (state.1 ++ [component], explored)
              restVertices
              (by
                intro other listed
                rcases List.mem_append.mp listed with old | new
                · exact isComponent other old
                · rw [List.mem_singleton.mp new]
                  exact ⟨vertex, isVertex, connectedIff⟩)
              (by
                rw [List.pairwise_append]
                refine ⟨disjoint, by simp, ?_⟩
                intro other listed last lastListed key inOther inLast
                rw [List.mem_singleton.mp lastListed] at inLast
                have keyExplored := (exploredIff key).mpr ⟨other, listed, inOther⟩
                have back := undirected.connected_symm
                  ((connectedIff key).mp inLast)
                exact known (back.mem_of_closed
                  (motive := fun value => value ∈ state.2)
                  (fun _ _ inside step => closed _ inside _ step)
                  keyExplored))
              (by
                intro key
                simp only [grown, exploredIff, List.mem_append,
                  List.mem_singleton]
                constructor
                · rintro (⟨other, listed, inOther⟩ | inComponent)
                  · exact ⟨other, Or.inl listed, inOther⟩
                  · exact ⟨component, Or.inr rfl, inComponent⟩
                · rintro ⟨other, listed | rfl, inOther⟩
                  · exact Or.inl ⟨other, listed, inOther⟩
                  · exact Or.inr inOther)
          refine ⟨final, ?_, finalComponent, finalDisjoint, ?_⟩
          · rw [List.foldlM_cons, bind_eq_ok]
            refine ⟨(state.1 ++ [component], explored), ?_, runs⟩
            simp only [lccVisit, known, if_false, searched]
            rfl
          · have inComponent : vertex ∈ component :=
              (connectedIff vertex).mpr Relation.ReflTransGen.refl
            rintro key (member | old)
            · rcases List.mem_cons.mp member with rfl | inRest
              · exact covers key (Or.inr ((grown key).mpr (Or.inr inComponent)))
              · exact covers key (Or.inl inRest)
            · exact covers key (Or.inr ((grown key).mpr (Or.inl old)))
  obtain ⟨final, runs, isComponent, disjoint, covers⟩ :=
    visit graph.keys ([], ∅) (fun _ member => member)
      (by simp) List.Pairwise.nil (by simp)
  refine ⟨final.1, ?_, isComponent, disjoint, ?_⟩
  · simp only [gGetLcc, runs]
    rfl
  · exact fun key member => covers key (Or.inl member)

/-- Each vertex lies in exactly one listed component. -/
theorem IsComponents.unique
    {graph : LinkMap κ κ} {components : List (KeySet κ)}
    (isComponents : IsComponents graph components)
    {first second : KeySet κ}
    (firstListed : first ∈ components) (secondListed : second ∈ components)
    {key : κ} (inFirst : key ∈ first) (inSecond : key ∈ second) :
    first = second := by
  by_contra different
  exact isComponents.disjoint.forall firstListed secondListed different
    key inFirst inSecond

/-- A listed component holds every vertex connected to one of its own. -/
theorem IsComponents.mem_iff
    {graph : LinkMap κ κ} {components : List (KeySet κ)}
    (undirected : Undirected graph)
    (isComponents : IsComponents graph components)
    {component : KeySet κ} (listed : component ∈ components)
    {first second : κ} (inside : first ∈ component) :
    second ∈ component ↔ SameComponent graph first second := by
  obtain ⟨root, rootVertex, connectedIff⟩ :=
    isComponents.isComponent component listed
  have rootToFirst := (connectedIff first).mp inside
  constructor
  · intro member
    exact ⟨undirected.mem_of_connected rootVertex rootToFirst,
      (undirected.connected_symm rootToFirst).trans
        ((connectedIff second).mp member)⟩
  · rintro ⟨_, connected⟩
    exact (connectedIff second).mpr (rootToFirst.trans connected)

/-- The keys in listed components are the vertices. -/
theorem IsComponents.mem_graph_iff
    {graph : LinkMap κ κ} {components : List (KeySet κ)}
    (undirected : Undirected graph)
    (isComponents : IsComponents graph components) {key : κ} :
    (∃ component ∈ components, key ∈ component) ↔ key ∈ graph := by
  constructor
  · rintro ⟨component, listed, inside⟩
    exact ((isComponents.mem_iff undirected listed inside).mp inside).1
  · exact isComponents.covers key

/-- Storing one component under each of its keys. -/
private theorem find_closeComponent
    (component : KeySet κ) (keys : List κ) (closure : LinkMap κ κ)
    (query : κ) :
    (keys.foldl (fun closure vertex =>
        (gAddVertex closure vertex).modify vertex fun _ => component)
      closure).find query =
      if query ∈ keys then some component else closure.find query := by
  induction keys generalizing closure with
  | nil =>
      simp
  | cons key rest inductionHypothesis =>
      rw [List.foldl_cons, inductionHypothesis, gAddVertex,
        OrdDict.find_modify, OrdDict.find_insertNew]
      by_cases inRest : query ∈ rest
      · simp [inRest]
      · by_cases same : query = key
        · subst same
          cases found : closure.find query with
          | none =>
              simp [inRest, OrdDict.find_eq_none.mp found]
          | some old =>
              simp [inRest, OrdDict.mem_of_find found]
        · simp [inRest, same]

/-- Under each key the closure stores the one component that holds it. -/
theorem find_closureOfComponents
    {components : List (KeySet κ)}
    (disjoint : components.Pairwise Apart)
    {key : κ} {component : KeySet κ} :
    (closureOfComponents components).find key = some component ↔
      component ∈ components ∧ key ∈ component := by
  have fold : ∀ (rest : List (KeySet κ)) (closure : LinkMap κ κ),
      rest.Pairwise Apart →
      ((rest.foldl (fun closure component =>
          component.keys.foldl (fun closure vertex =>
            (gAddVertex closure vertex).modify vertex fun _ => component)
            closure) closure).find key = some component ↔
        (component ∈ rest ∧ key ∈ component) ∨
          ((∀ other ∈ rest, key ∉ other) ∧
            closure.find key = some component)) := by
    intro rest
    induction rest with
    | nil =>
        simp
    | cons head tail inductionHypothesis =>
        intro closure apart
        rw [List.pairwise_cons] at apart
        rw [List.foldl_cons, inductionHypothesis _ apart.2,
          find_closeComponent]
        by_cases inHead : key ∈ head
        · have notInTail : ∀ other ∈ tail, key ∉ other :=
            fun other listed => apart.1 other listed key inHead
          have headKeys : key ∈ head.keys := inHead
          simp only [headKeys, if_true, List.mem_cons, Option.some.injEq,
            forall_eq_or_imp, inHead, not_true, false_and, or_false]
          constructor
          · rintro (⟨listed, inside⟩ | ⟨_, rfl⟩)
            · exact (notInTail _ listed inside).elim
            · exact ⟨Or.inl rfl, inHead⟩
          · rintro ⟨rfl | listed, inside⟩
            · exact Or.inr ⟨notInTail, rfl⟩
            · exact (notInTail _ listed inside).elim
        · have headKeys : key ∉ head.keys := inHead
          simp only [headKeys, if_false, List.mem_cons, forall_eq_or_imp,
            inHead, not_false_iff, true_and]
          constructor
          · rintro (⟨listed, inside⟩ | other)
            · exact Or.inl ⟨Or.inr listed, inside⟩
            · exact Or.inr other
          · rintro (⟨rfl | listed, inside⟩ | other)
            · exact (inHead inside).elim
            · exact Or.inl ⟨listed, inside⟩
            · exact Or.inr other
  have result := fold components ∅ disjoint
  simpa [closureOfComponents] using result

/--
`g_transitive_closure` of an undirected graph: the keys linked to a vertex are
those of its component.
-/
theorem gTransitiveClosure_ok
    {graph : LinkMap κ κ} (undirected : Undirected graph) :
    ∃ closure, gTransitiveClosure graph = .ok closure ∧
      ∀ first second,
        Linked closure first second ↔ SameComponent graph first second := by
  obtain ⟨components, runs, isComponents⟩ := gGetLcc_ok undirected
  refine ⟨closureOfComponents components, ?_, ?_⟩
  · rw [gTransitiveClosure, runs]
    rfl
  · intro first second
    constructor
    · rintro ⟨component, found, inside⟩
      obtain ⟨listed, firstInside⟩ :=
        (find_closureOfComponents isComponents.disjoint).mp found
      exact (isComponents.mem_iff undirected listed firstInside).mp inside
    · intro same
      obtain ⟨component, listed, inside⟩ := isComponents.covers first same.1
      exact ⟨component,
        (find_closureOfComponents isComponents.disjoint).mpr
          ⟨listed, inside⟩,
        (isComponents.mem_iff undirected listed inside).mpr same⟩

/--
On every graph that calls of `g_add_edge` build, `g_get_lcc` partitions the
vertices into the sets of vertices that paths connect, and
`g_transitive_closure` maps each vertex to the set of those connected to it.
-/
theorem components_exact
    (edges : List (κ × κ)) :
    ∃ components closure,
      gGetLcc (gAddEdges ∅ edges) = .ok components ∧
      gTransitiveClosure (gAddEdges ∅ edges) = .ok closure ∧
      (∀ component ∈ components, ∃ key, key ∈ component) ∧
      components.Pairwise Apart ∧
      (∀ key, (∃ component ∈ components, key ∈ component) ↔
        key ∈ gAddEdges ∅ edges) ∧
      (∀ first ∈ gAddEdges ∅ edges, ∀ second,
        (∃ component ∈ components, first ∈ component ∧ second ∈ component) ↔
          Connected (gAddEdges ∅ edges) first second) ∧
      (∀ key, key ∈ closure ↔ key ∈ gAddEdges ∅ edges) ∧
      ∀ key reached, closure.find key = some reached →
        ∀ other, other ∈ reached ↔ Connected (gAddEdges ∅ edges) key other := by
  have undirected : Undirected (gAddEdges ∅ edges) :=
    undirected_empty.joinAll edges
  generalize gAddEdges ∅ edges = graph at undirected ⊢
  obtain ⟨components, runs, isComponents⟩ := gGetLcc_ok undirected
  refine ⟨components, closureOfComponents components, runs, ?_, ?_,
    isComponents.disjoint, fun key => isComponents.mem_graph_iff undirected,
    ?_, ?_, ?_⟩
  · rw [gTransitiveClosure, runs]
    rfl
  · intro component listed
    obtain ⟨root, _, connectedIff⟩ := isComponents.isComponent component listed
    exact ⟨root, (connectedIff root).mpr Relation.ReflTransGen.refl⟩
  · intro first vertex second
    constructor
    · rintro ⟨component, listed, inside, otherInside⟩
      exact ((isComponents.mem_iff undirected listed inside).mp otherInside).2
    · intro connected
      obtain ⟨component, listed, inside⟩ := isComponents.covers first vertex
      exact ⟨component, listed, inside,
        (isComponents.mem_iff undirected listed inside).mpr ⟨vertex, connected⟩⟩
  · intro key
    rw [← isComponents.mem_graph_iff undirected]
    constructor
    · intro known
      obtain ⟨component, found⟩ := OrdDict.exists_find_of_mem known
      exact ⟨component, (find_closureOfComponents isComponents.disjoint).mp found⟩
    · rintro ⟨component, inside⟩
      exact OrdDict.mem_of_find
        ((find_closureOfComponents isComponents.disjoint).mpr inside)
  · intro key reached found other
    obtain ⟨listed, inside⟩ :=
      (find_closureOfComponents isComponents.disjoint).mp found
    have vertex := (isComponents.mem_graph_iff undirected).mp
      ⟨reached, listed, inside⟩
    rw [isComponents.mem_iff undirected listed inside]
    exact ⟨And.right, fun connected => ⟨vertex, connected⟩⟩

end Components

section Building

/-- `g_add_cc_to_g` links the first key of the set with each other key. -/
theorem linked_gAddCcToG
    (graph : LinkMap κ κ) (component : KeySet κ) (left right : κ) :
    Linked (gAddCcToG graph component) left right ↔
      (∃ first rest, component.keys = first :: rest ∧
        ((left = first ∧ right ∈ rest) ∨ (right = first ∧ left ∈ rest))) ∨
        Linked graph left right := by
  unfold gAddCcToG
  cases keys : component.keys with
  | nil =>
      simp
  | cons first rest =>
      simp only [gAddEdges, linked_joinAll, List.mem_map, Prod.mk.injEq]
      constructor
      · rintro (⟨key, inRest, rfl, rfl⟩ | ⟨key, inRest, rfl, rfl⟩ | old)
        · exact Or.inl ⟨first, rest, rfl, Or.inl ⟨rfl, inRest⟩⟩
        · exact Or.inl ⟨first, rest, rfl, Or.inr ⟨rfl, inRest⟩⟩
        · exact Or.inr old
      · rintro (⟨_, _, shape, ⟨rfl, inRest⟩ | ⟨rfl, inRest⟩⟩ | old)
        · cases shape
          exact Or.inl ⟨right, inRest, rfl, rfl⟩
        · cases shape
          exact Or.inr (Or.inl ⟨left, inRest, rfl, rfl⟩)
        · exact Or.inr (Or.inr old)

/-- `g_add_cc_to_g` keeps a graph undirected. -/
theorem undirected_gAddCcToG
    {graph : LinkMap κ κ} (undirected : Undirected graph)
    (component : KeySet κ) :
    Undirected (gAddCcToG graph component) := by
  intro left right linked
  rw [linked_gAddCcToG] at linked ⊢
  rcases linked with ⟨first, rest, shape, new⟩ | old
  · exact Or.inl ⟨first, rest, shape, new.symm⟩
  · exact Or.inr (undirected old)

/-- After `g_add_cc_to_g` the members of the set are connected. -/
theorem connected_gAddCcToG
    (graph : LinkMap κ κ) (component : KeySet κ) {left right : κ}
    (leftMember : left ∈ component) (rightMember : right ∈ component) :
    Connected (gAddCcToG graph component) left right := by
  cases keys : component.keys with
  | nil =>
      rw [← OrdDict.mem_keys, keys] at leftMember
      exact (List.not_mem_nil leftMember).elim
  | cons first rest =>
      have toFirst : ∀ key ∈ component,
          Connected (gAddCcToG graph component) first key ∧
            Connected (gAddCcToG graph component) key first := by
        intro key member
        rw [← OrdDict.mem_keys, keys, List.mem_cons] at member
        rcases member with rfl | inRest
        · exact ⟨Relation.ReflTransGen.refl, Relation.ReflTransGen.refl⟩
        · exact ⟨connected_of_linked ((linked_gAddCcToG _ _ _ _).mpr
              (Or.inl ⟨first, rest, keys, Or.inl ⟨rfl, inRest⟩⟩)),
            connected_of_linked ((linked_gAddCcToG _ _ _ _).mpr
              (Or.inl ⟨first, rest, keys, Or.inr ⟨rfl, inRest⟩⟩))⟩
      exact (toFirst left leftMember).2.trans (toFirst right rightMember).1

end Building

end Mcfi
