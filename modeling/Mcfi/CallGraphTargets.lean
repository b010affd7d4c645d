import Mcfi.DuplicateKeys
import Mcfi.GraphGrowth

namespace Mcfi

open LinkMap

/-!
# The targets of indirect branches

A virtual call looks for its functions first under its own class and then under
the classes of the inheritance group, in the order of the closure, and takes the
first class that has any.
-/

section Lookup

/-- Looking for the first value is looking for the first place that has one. -/
private theorem findSome?_eq_find? {α β : Type} (value : α → Option β) (items : List α) :
    items.findSome? value = (items.find? fun item => (value item).isSome).bind value := by
  induction items with
  | nil => rfl
  | cons item rest inductionHypothesis =>
      rw [List.findSome?_cons, List.find?_cons]
      cases found : value item with
      | some result => simp [found]
      | none => simpa using inductionHypothesis

/-- The class through which a virtual call is linked. -/
def firstFiled (groups : FuncGroups) (chacc : LinkMap Name Name)
    (className methodName : Name) : Option Name :=
  (className :: chacc.targets className).find? fun other =>
    (some other, some methodName) ∈ groups.virtualFuncsByClsMtd

/-- A virtual call is linked with the functions of the first class that has any. -/
theorem mem_virtualTargets {groups : FuncGroups} {chacc : LinkMap Name Name} {icf : Icf}
    {className methodName name : Name}
    (isVirtual : icf.ity = .virtualMethodCall className methodName) :
    name ∈ icfTargets groups chacc icf ↔
      ∃ other, firstFiled groups chacc className methodName = some other ∧
        Linked groups.virtualFuncsByClsMtd (some other, some methodName) name := by
  have isFiled : ∀ other,
      (gFindL2Vertex groups.virtualFuncsByClsMtd (some other) (some methodName)).isSome =
        decide ((some other, some methodName) ∈ groups.virtualFuncsByClsMtd) := by
    intro other
    rw [gFindL2Vertex, dictFind, Bool.eq_iff_iff, decide_eq_true_iff,
      Option.isSome_iff_exists]
    refine ⟨?_, OrdDict.exists_find_of_mem⟩
    rintro ⟨_, found⟩
    exact OrdDict.mem_of_find found
  have targets : icfTargets groups chacc icf =
      (firstFiled groups chacc className methodName).elim [] fun other =>
        groups.virtualFuncsByClsMtd.targets (some other, some methodName) := by
    rw [icfTargets, isVirtual, firstFiled, List.find?_cons, ← isFiled]
    simp only [← isFiled, findSome?_eq_find?, gFindL2Vertex, dictFind]
    cases direct : groups.virtualFuncsByClsMtd.find (some className, some methodName) with
    | some names => simp [LinkMap.targets, direct]
    | none =>
        simp only [Option.isSome_none]
        cases (chacc.targets className).find? fun other =>
          (groups.virtualFuncsByClsMtd.find (some other, some methodName)).isSome with
        | none => rfl
        | some other =>
            cases found : groups.virtualFuncsByClsMtd.find (some other, some methodName) <;>
              simp [LinkMap.targets, found]
  rw [targets]
  cases firstFiled groups chacc className methodName with
  | none => simp
  | some other => simp [mem_targets]

end Lookup

section Edges

namespace CallgraphParts

variable {attrs : UInt8} {info : Metainfo} {callgraph : LinkMap Nat Nat}
  {allFuncs : LinkMap Name Function}
  (parts : CallgraphParts attrs info callgraph allFuncs)
include parts

/-- The neighbours of a branch are its targets. -/
theorem linked_branch_iff (chaUndirected : Undirected info.cha) {id : Name} {key : Nat} :
    Linked callgraph (markIcj id) key ↔
      ∃ icf ∈ info.icfs, icf.id = id ∧
        ∃ name ∈ icfTargets parts.groups parts.chacc icf, key = markFunc name := by
  constructor
  · intro linked
    rcases parts.linked_iff chaUndirected linked with
      ⟨icf, listed, name, target, ⟨isBranch, isTarget⟩ | ⟨isFunction, _⟩⟩ |
      ⟨_, _, _, _, _, ⟨_, name, _, isFunction⟩, _⟩
    · exact ⟨icf, listed, (markIcj_inj.mp isBranch).symm, name, target, isTarget⟩
    · exact absurd isFunction.symm (markFunc_ne_markIcj name id)
    · exact absurd isFunction.symm (markFunc_ne_markIcj name id)
  · rintro ⟨icf, listed, rfl, name, target, rfl⟩
    rw [parts.callgraphIs, linked_foldl_addIcfEdges]
    exact Or.inl ⟨icf, listed, name, target, Or.inl ⟨rfl, rfl⟩⟩

/-- The functions that implement a virtual method of a class. -/
theorem implements_iff {className methodName : Name} {key : Nat} :
    Implements info.classes parts.groups.virtualFuncsByClsMtd className methodName key ↔
      virtualEntry info.classes className methodName = true ∧
        ∃ f ∈ info.functions, f.className = some className ∧
          f.methodName = some methodName ∧
            ∃ name, NameOrAlias parts.aliasesTc f name ∧ key = markFunc name := by
  refine and_congr_right fun isEntry => ?_
  simp only [parts.groupsAre, linked_virtualFuncs_of_entry isEntry]
  constructor
  · rintro ⟨name, ⟨f, listed, ofClass, ofMethod, filed⟩, rfl⟩
    exact ⟨f, listed, ofClass, ofMethod, name, filed, rfl⟩
  · rintro ⟨f, listed, ofClass, ofMethod, name, filed, rfl⟩
    exact ⟨name, ⟨f, listed, ofClass, ofMethod, filed⟩, rfl⟩

/-- A class and a method are filed with some function. -/
theorem mem_virtuals_iff {className methodName : Name} :
    (some className, some methodName) ∈ parts.groups.virtualFuncsByClsMtd ↔
      ∃ name, Linked parts.groups.virtualFuncsByClsMtd (some className, some methodName)
        name := by
  constructor
  · intro filed
    rw [parts.groupsAre] at filed ⊢
    exact populated_virtualFuncs info.functions attrs _ filed
  · rintro ⟨name, linked⟩
    exact mem_of_linked linked

/-- Linked vertices of the call graph differ. -/
theorem ne_of_linked (chaUndirected : Undirected info.cha) {left right : Nat}
    (linked : Linked callgraph left right) : left ≠ right := by
  rcases parts.linked_iff chaUndirected linked with
    ⟨icf, _, name, _, ⟨rfl, rfl⟩ | ⟨rfl, rfl⟩⟩ | ⟨differ, _⟩
  · exact (markFunc_ne_markIcj name icf.id).symm
  · exact markFunc_ne_markIcj name icf.id
  · exact differ

/-- The vertices of the call graph are the values connected with another one. -/
theorem mem_callgraph_iff (chaUndirected : Undirected info.cha) {vertex : Nat} :
    vertex ∈ callgraph ↔ ∃ other, vertex ≠ other ∧ Connected callgraph vertex other := by
  constructor
  · intro member
    obtain ⟨other, linked⟩ := parts.populated vertex member
    exact ⟨other, parts.ne_of_linked chaUndirected linked, connected_of_linked linked⟩
  · rintro ⟨other, differ, connected⟩
    exact mem_of_connected_of_ne connected differ

end CallgraphParts

end Edges

end Mcfi
