import Mcfi.CallGraphEdges

namespace Mcfi

open LinkMap

/-!
# The return graph

`build_retgraph` grows the call graph in place.  A function's name is linked
with its aliases, its returns and its tail calls; the return address of a direct
call is linked with the callee's name, that of an indirect call with the branch.
-/

/-- The edges `build_retgraph` adds for a function filed under a name. -/
def funcEdges (name : Name) (f : Function) : List (Nat × Nat) :=
  (if name ≠ f.name then [(markFunc name, markFunc f.name)] else []) ++
    f.returns.map (fun val => (markFunc f.name, markRet val)) ++
    (f.dtails.filter fun val => f.name ≠ val).map
      (fun val => (markFunc f.name, markFunc val)) ++
    f.itails.map (fun val => (markFunc f.name, markIcj val))

/-- The edges `build_retgraph` adds for a module's return addresses. -/
def raEdges (codeModule : CodeModule) : List (Nat × Nat) :=
  codeModule.rad.map (fun s => (markRaDc s.name, markFunc s.name)) ++
    codeModule.rai.map (fun s => (markRaIc s.name, markIcj s.name))

/-- `build_retgraph`. -/
def buildRetgraph (callgraph : LinkMap Nat Nat)
    (allFuncs : LinkMap Name Function) (modules : List CodeModule) :
    LinkMap Nat Nat :=
  let withFuncs := gAddEdges callgraph
    (allFuncs.entries.flatMap fun entry =>
      entry.2.keys.flatMap fun f => funcEdges entry.1 f)
  gAddEdges withFuncs (modules.flatMap raEdges)

/-- An edge, as `build_retgraph` adds it. -/
def RetEdge (allFuncs : LinkMap Name Function) (modules : List CodeModule)
    (left right : Nat) : Prop :=
  (∃ name f, Linked allFuncs name f ∧ (left, right) ∈ funcEdges name f) ∨
    ∃ codeModule ∈ modules, (left, right) ∈ raEdges codeModule

/-- The links of the return graph. -/
theorem linked_buildRetgraph
    {callgraph : LinkMap Nat Nat} {allFuncs : LinkMap Name Function}
    {modules : List CodeModule} {left right : Nat} :
    Linked (buildRetgraph callgraph allFuncs modules) left right ↔
      RetEdge allFuncs modules left right ∨
        RetEdge allFuncs modules right left ∨ Linked callgraph left right := by
  have functionPairs : ∀ pair : Nat × Nat,
      pair ∈ (allFuncs.entries.flatMap fun entry =>
          entry.2.keys.flatMap fun f => funcEdges entry.1 f) ↔
        ∃ name f, Linked allFuncs name f ∧ pair ∈ funcEdges name f := by
    intro pair
    simp only [List.mem_flatMap]
    constructor
    · rintro ⟨⟨name, functions⟩, listed, f, member, inEdges⟩
      exact ⟨name, f, ⟨functions, OrdDict.find_eq_some.mpr listed, member⟩,
        inEdges⟩
    · rintro ⟨name, f, ⟨functions, found, member⟩, inEdges⟩
      exact ⟨(name, functions), OrdDict.find_eq_some.mp found, f, member,
        inEdges⟩
  unfold buildRetgraph gAddEdges RetEdge
  rw [linked_joinAll, linked_joinAll, functionPairs, functionPairs,
    List.mem_flatMap, List.mem_flatMap]
  grind

/-- The return graph is undirected. -/
theorem undirected_buildRetgraph
    {callgraph : LinkMap Nat Nat} (undirected : Undirected callgraph)
    (allFuncs : LinkMap Name Function) (modules : List CodeModule) :
    Undirected (buildRetgraph callgraph allFuncs modules) :=
  (undirected.joinAll _).joinAll _

/-- Every vertex of the return graph has an edge. -/
theorem populated_buildRetgraph
    {callgraph : LinkMap Nat Nat} (populated : Populated callgraph)
    {allFuncs : LinkMap Name Function} {modules : List CodeModule} :
    Populated (buildRetgraph callgraph allFuncs modules) :=
  (populated.joinAll _).joinAll _

section RetEdges

variable {callgraph : LinkMap Nat Nat} {allFuncs : LinkMap Name Function}
  {modules : List CodeModule}

/-- Every edge of the call graph stays. -/
theorem connected_of_callgraph
    {left right : Nat} (connected : Connected callgraph left right) :
    Connected (buildRetgraph callgraph allFuncs modules) left right :=
  connected.transport fun _ _ linked => connected_of_linked
    (linked_buildRetgraph.mpr (Or.inr (Or.inr linked)))

/-- No added edge is a loop. -/
theorem RetEdge.ne
    {left right : Nat} (edge : RetEdge allFuncs modules left right) :
    left ≠ right := by
  rcases edge with ⟨name, f, _, inEdges⟩ | ⟨codeModule, _, inEdges⟩
  · rw [funcEdges, List.mem_append, List.mem_append, List.mem_append] at inEdges
    rcases inEdges with ((isAlias | isReturn) | isDirectTail) | isIndirectTail
    · split at isAlias
      next different =>
        cases List.mem_singleton.mp isAlias
        exact fun same => different (markFunc_inj.mp same)
      next => cases isAlias
    · obtain ⟨val, _, stored⟩ := List.mem_map.mp isReturn
      cases stored
      exact markFunc_ne_markRet _ _
    · obtain ⟨val, listed, stored⟩ := List.mem_map.mp isDirectTail
      cases stored
      have different := (List.mem_filter.mp listed).2
      rw [decide_eq_true_eq] at different
      exact fun same => different (markFunc_inj.mp same)
    · obtain ⟨val, _, stored⟩ := List.mem_map.mp isIndirectTail
      cases stored
      exact markFunc_ne_markIcj _ _
  · rw [raEdges, List.mem_append] at inEdges
    rcases inEdges with isDirect | isIndirect
    · obtain ⟨s, _, stored⟩ := List.mem_map.mp isDirect
      cases stored
      exact (markFunc_ne_markRaDc _ _).symm
    · obtain ⟨s, _, stored⟩ := List.mem_map.mp isIndirect
      cases stored
      exact (markIcj_ne_markRaIc _ _).symm

/-- The ends of an added edge are connected. -/
theorem connected_of_retEdge
    {left right : Nat} (edge : RetEdge allFuncs modules left right) :
    Connected (buildRetgraph callgraph allFuncs modules) left right :=
  connected_of_linked (linked_buildRetgraph.mpr (Or.inl edge))

/-- A name a function is filed under is connected with the function's own. -/
theorem connected_filed_name
    {name : Name} {f : Function} (filed : Linked allFuncs name f) :
    Connected (buildRetgraph callgraph allFuncs modules)
      (markFunc name) (markFunc f.name) := by
  by_cases same : name = f.name
  · rw [same]
    exact Relation.ReflTransGen.refl
  · apply connected_of_retEdge
    exact Or.inl ⟨name, f, filed, by simp [funcEdges, same]⟩

/-- The return address of a direct call is connected with the callee. -/
theorem connected_rad
    {codeModule : CodeModule} (loaded : codeModule ∈ modules)
    {s : Symbol} (listed : s ∈ codeModule.rad) :
    Connected (buildRetgraph callgraph allFuncs modules)
      (markRaDc s.name) (markFunc s.name) :=
  connected_of_retEdge (Or.inr ⟨codeModule, loaded,
    List.mem_append_left _ (List.mem_map.mpr ⟨s, listed, rfl⟩)⟩)

/-- The return address of an indirect call is connected with the branch. -/
theorem connected_rai
    {codeModule : CodeModule} (loaded : codeModule ∈ modules)
    {s : Symbol} (listed : s ∈ codeModule.rai) :
    Connected (buildRetgraph callgraph allFuncs modules)
      (markRaIc s.name) (markIcj s.name) :=
  connected_of_retEdge (Or.inr ⟨codeModule, loaded,
    List.mem_append_right _ (List.mem_map.mpr ⟨s, listed, rfl⟩)⟩)

end RetEdges

end Mcfi
