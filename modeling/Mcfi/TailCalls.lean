import Mcfi.Generation

namespace Mcfi

open LinkMap

/-!
# Tail calls and return edges

A function may leave through a tail call, and then its caller's return address
is reached by the return of another function.  The return graph connects every
such return with the call site, however long the chain of tail calls is.
-/

/-- A function that a call to a name enters: it has the name, or an alias of it. -/
def Answers (modules : List CodeModule) (name : Name) (f : Function) : Prop :=
  f ∈ (mergeMcfiMetainfo modules).functions ∧
    (name = f.name ∨
      SameComponent (mergeMcfiMetainfo modules).aliases f.name name)

/-- A chain of tail calls and aliases from one function to another. -/
inductive TailChain (modules : List CodeModule) (callgraph : LinkMap Nat Nat)
    (f : Function) : Function → Prop where
  | refl : TailChain modules callgraph f f
  | aliased
      {g h : Function}
      (chain : TailChain modules callgraph f g)
      (answers : Answers modules g.name h) :
      TailChain modules callgraph f h
  | directTail
      {g h : Function} {target : Name}
      (chain : TailChain modules callgraph f g)
      (tail : target ∈ g.dtails)
      (answers : Answers modules target h) :
      TailChain modules callgraph f h
  | indirectTail
      {g h : Function} {icf target : Name}
      (chain : TailChain modules callgraph f g)
      (tail : icf ∈ g.itails)
      (sameComponent :
        SameComponent callgraph (markIcj icf) (markFunc target))
      (answers : Answers modules target h) :
      TailChain modules callgraph f h

/-- A call site, by the name of its return address symbol. -/
inductive CallSite where
  | direct (callee : Name)
  | indirect (icf : Name)

namespace CallSite

/-- The vertex of a call site's return address. -/
def raNode : CallSite → Nat
  | direct callee => markRaDc callee
  | indirect icf => markRaIc icf

/-- Some module lists the call site's return address. -/
def Listed (modules : List CodeModule) : CallSite → Prop
  | direct callee =>
      ∃ codeModule ∈ modules, ∃ s ∈ codeModule.rad, s.name = callee
  | indirect icf =>
      ∃ codeModule ∈ modules, ∃ s ∈ codeModule.rai, s.name = icf

/-- A function that the call site can enter. -/
def Enters (modules : List CodeModule) (callgraph : LinkMap Nat Nat) :
    CallSite → Function → Prop
  | direct callee, f => Answers modules callee f
  | indirect icf, f =>
      ∃ target, Linked callgraph (markIcj icf) (markFunc target) ∧
        Answers modules target f

end CallSite

section Chains

variable {attrs : UInt8} {runtime : Runtime} {cfg : CfgData}
  (facts : CfgFacts attrs runtime cfg)
include facts

/-- A name is connected with every function that answers to it. -/
private theorem connected_of_answers
    {name : Name} {f : Function} (answers : Answers runtime.modules name f) :
    Connected cfg.retgraph (markFunc name) (markFunc f.name) := by
  rw [facts.retgraphIs]
  exact connected_filed_name
    ((facts.parts.linked_allFuncs_iff name f).mpr answers)

/-- A function is connected with the names its edges lead to. -/
private theorem connected_of_funcEdge
    {f : Function} (listed : f ∈ (mergeMcfiMetainfo runtime.modules).functions)
    {right : Nat} (edge : (markFunc f.name, right) ∈ funcEdges f.name f) :
    Connected cfg.retgraph (markFunc f.name) right := by
  rw [facts.retgraphIs]
  exact connected_of_retEdge (Or.inl ⟨f.name, f,
    (facts.parts.linked_allFuncs_iff f.name f).mpr ⟨listed, Or.inl rfl⟩, edge⟩)

/-- A chain stays in one component of the return graph, and among functions. -/
private theorem connected_of_tailChain
    {f h : Function}
    (listed : f ∈ (mergeMcfiMetainfo runtime.modules).functions)
    (chain : TailChain runtime.modules cfg.callgraph f h) :
    h ∈ (mergeMcfiMetainfo runtime.modules).functions ∧
      Connected cfg.retgraph (markFunc f.name) (markFunc h.name) := by
  induction chain with
  | refl =>
      exact ⟨listed, Relation.ReflTransGen.refl⟩
  | aliased chain answers inductionHypothesis =>
      exact ⟨answers.1,
        inductionHypothesis.2.trans (connected_of_answers facts answers)⟩
  | @directTail g h target chain tail answers inductionHypothesis =>
      refine ⟨answers.1, inductionHypothesis.2.trans ?_⟩
      refine Relation.ReflTransGen.trans ?_ (connected_of_answers facts answers)
      -- the source adds no edge when a function tail-calls itself
      by_cases self : g.name = target
      · exact self ▸ Relation.ReflTransGen.refl
      · apply connected_of_funcEdge facts inductionHypothesis.1
        simp [funcEdges, tail, self]
  | @indirectTail g h icf target chain tail sameComponent answers
      inductionHypothesis =>
      refine ⟨answers.1, inductionHypothesis.2.trans ?_⟩
      have toBranch : Connected cfg.retgraph (markFunc g.name) (markIcj icf) := by
        apply connected_of_funcEdge facts inductionHypothesis.1
        simp [funcEdges, tail]
      have toTarget :
          Connected cfg.retgraph (markIcj icf) (markFunc target) := by
        rw [facts.retgraphIs]
        exact connected_of_callgraph sameComponent.2
      exact (toBranch.trans toTarget).trans
        (connected_of_answers facts answers)

/-- A call site's return address is connected with what the site enters. -/
private theorem connected_of_enters
    {site : CallSite} {f : Function}
    (listed : site.Listed runtime.modules)
    (enters : site.Enters runtime.modules cfg.callgraph f) :
    f ∈ (mergeMcfiMetainfo runtime.modules).functions ∧
      Connected cfg.retgraph site.raNode (markFunc f.name) := by
  cases site with
  | direct callee =>
      obtain ⟨codeModule, loaded, s, member, rfl⟩ := listed
      refine ⟨enters.1, Relation.ReflTransGen.trans ?_
        (connected_of_answers facts enters)⟩
      rw [facts.retgraphIs]
      exact connected_rad loaded member
  | indirect icf =>
      obtain ⟨codeModule, loaded, s, member, rfl⟩ := listed
      obtain ⟨target, linked, answers⟩ := enters
      refine ⟨answers.1, Relation.ReflTransGen.trans ?_
        (connected_of_answers facts answers)⟩
      rw [facts.retgraphIs]
      exact (connected_rai loaded member).trans
        (connected_of_callgraph (connected_of_linked linked))

end Chains

/--
Tail calls never lose a return edge: every return of a function at the end of a
chain of tail calls lies in the component of the call site's return address, and
both receive one return id.
-/
theorem return_reaches_callSite
    {attrs : UInt8} {runtime : Runtime} {cfg : CfgData}
    (generated : computeCfg attrs runtime = .ok cfg)
    {site : CallSite} (listed : site.Listed runtime.modules)
    {f h : Function}
    (enters : site.Enters runtime.modules cfg.callgraph f)
    (chain : TailChain runtime.modules cfg.callgraph f h)
    {r : Name} (returns : r ∈ h.returns) :
    SameComponent cfg.retgraph (markRet r) site.raNode ∧
      ∃ id, cfg.tables.retids.find (markRet r) = some id ∧
        cfg.tables.retids.find site.raNode = some id := by
  obtain ⟨facts⟩ := computeCfg_facts generated
  obtain ⟨entered, fromSite⟩ := connected_of_enters facts listed enters
  obtain ⟨reached, alongChain⟩ := connected_of_tailChain facts entered chain
  have toReturn : Connected cfg.retgraph (markFunc h.name) (markRet r) := by
    apply connected_of_funcEdge facts reached
    simp [funcEdges, returns]
  have siteToReturn : Connected cfg.retgraph site.raNode (markRet r) :=
    (fromSite.trans alongChain).trans toReturn
  have siteNotReturn : site.raNode ≠ markRet r := by
    have returnMarks := marks_bounds r
    cases site with
    | direct callee =>
        have siteMarks := marks_bounds callee
        change markRaDc callee ≠ markRet r
        omega
    | indirect icf =>
        have siteMarks := marks_bounds icf
        change markRaIc icf ≠ markRet r
        omega
  have siteVertex : site.raNode ∈ cfg.retgraph :=
    mem_of_connected_of_ne siteToReturn siteNotReturn
  have same : SameComponent cfg.retgraph (markRet r) site.raNode :=
    SameComponent.symm facts.retUndirected ⟨siteVertex, siteToReturn⟩
  have returnVertex := (facts.assignment.retIds.memIff (markRet r)).mpr same.1
  obtain ⟨id, found⟩ := OrdDict.exists_find_of_mem returnVertex
  exact ⟨same, id, found,
    facts.assignment.retIds.sameOfComponent _ _ id same found⟩

namespace TailExample

/-- A caller's callee that leaves through a direct tail call. -/
def trampoline : Function where
  name := Name.ofPtr 16
  className := none
  methodName := none
  type := none
  returns := []
  dtails := [Name.ofPtr 32]
  itails := []

/-- The function at the end of the chain. -/
def worker : Function where
  name := Name.ofPtr 32
  className := none
  methodName := none
  type := none
  returns := [Name.ofPtr 48]
  dtails := []
  itails := []

/-- One module with a direct call of the trampoline. -/
def runtime : Runtime :=
  loadElf { allocCodeModule with
    functions := [trampoline, worker]
    rad := [⟨Name.ofPtr 16, 64⟩]
    instrumented := true } Runtime.boot

end TailExample

open TailExample in
/-- The worker's return and the trampoline's call site receive one id. -/
theorem return_reaches_callSite_trampoline :
    ∃ cfg id, computeCfg 0 TailExample.runtime = .ok cfg ∧
      cfg.tables.retids.find (markRet (Name.ofPtr 48)) = some id ∧
        cfg.tables.retids.find (markRaDc (Name.ofPtr 16)) = some id := by
  have returned :
      (computeCfg 0 TailExample.runtime).toOption.isSome = true := by
    decide +kernel
  cases generated : computeCfg 0 TailExample.runtime with
  | error fault =>
      simp [generated, Except.toOption] at returned
  | ok cfg =>
      have listed : (CallSite.direct (Name.ofPtr 16)).Listed
          TailExample.runtime.modules :=
        ⟨_, List.mem_singleton.mpr rfl, _, List.mem_singleton.mpr rfl, rfl⟩
      have enters : (CallSite.direct (Name.ofPtr 16)).Enters
          TailExample.runtime.modules cfg.callgraph trampoline :=
        ⟨by decide +kernel, Or.inl rfl⟩
      have chain : TailChain TailExample.runtime.modules cfg.callgraph
          trampoline worker :=
        .directTail .refl (List.mem_singleton.mpr rfl)
          ⟨by decide +kernel, Or.inl rfl⟩
      obtain ⟨_, id, returnId, siteId⟩ :=
        return_reaches_callSite generated listed enters chain
          (List.mem_singleton.mpr rfl)
      exact ⟨cfg, id, rfl, returnId, siteId⟩

end Mcfi
