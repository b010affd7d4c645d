import Mcfi.Activation
import Mcfi.Lib.HistoryRun

namespace Mcfi

open LinkMap ByteMem

/-!
# Taken addresses become valid targets

A patched site never traps again, so a target must be active when its site is
patched, or be activated by the next generation.  For return addresses the
runtime keeps a list of the early calls; for the sites that take a function's
address it only activates what the last generation has recorded.
-/

/-- The runtime, the ids of its last generation and the functions patched out. -/
structure Tracked where
  runtime : Runtime
  tables : Option IdTables
  patchedOut : List Name

namespace Tracked

/-- The state before anything is loaded. -/
def boot : Tracked where
  runtime := Runtime.boot
  tables := none
  patchedOut := []

/-- The function whose address a patched site takes. -/
def siteName (runtime : Runtime) (patchpoint : Nat) : Option Name := do
  let codeModule ← findModule runtime.modules patchpoint
  dictFind codeModule.atFunc (patchpoint - codeModule.baseAddr)

/-- What a returned call leaves. -/
def next (before : Tracked) (call : Call) (after : Runtime) : Tracked where
  runtime := after
  tables :=
    match call with
    | .generate attrs =>
        (computeCfg attrs before.runtime).toOption.map CfgData.tables
    | _ => before.tables
  patchedOut :=
    match call with
    | .patchAt patchpoint =>
        (siteName before.runtime patchpoint).toList ++ before.patchedOut
    | _ => before.patchedOut

/-- A function has an entry at an address, in a covered module, and a call id. -/
def CallEntry (state : Tracked) (name : Name) (addr : Nat) : Prop :=
  (∃ m ∈ state.runtime.modules, m.cfggened = true ∧ m.instrumented = true ∧
    ∃ sym ∈ m.funcsyms, sym.name = name ∧ m.baseAddr + sym.offset = addr) ∧
  ∃ tables, state.tables = some tables ∧ markFunc name ∈ tables.callids

end Tracked

/-- A call that a predicate admits leads from one state to another. -/
structure TrackedStep (admits : Tracked → Call → Prop) (before : Tracked)
    (call : Call) (after : Tracked) : Prop where
  admitted : admits before call
  returned : call.run before.runtime = .ok after.runtime
  nextIs : after = before.next call after.runtime

section Recording

variable {addr id : Nat} {name : Name}

/-- The store of a function's entry activates the entry or records it. -/
private theorem recorded_exec (state : TableState) (odd : id % 2 = 1)
    (small : id < 2 ^ 64) :
    Active (TableStore.exec state (.funcAddr addr name id)).table addr ∨
      Linked (TableStore.exec state (.funcAddr addr name id)).fatsInCode
        name addr ∨
      Linked (TableStore.exec state (.funcAddr addr name id)).vmtd name addr := by
  have active : Active (state.table.store64 addr id) addr := by
    rw [Active, load64_store64_same _ _ small]
    exact odd
  simp only [TableStore.exec]
  split
  next =>
    split
    next => exact Or.inr (Or.inl (linked_link.mpr (Or.inl ⟨rfl, rfl⟩)))
    next =>
      split
      next => exact Or.inr (Or.inr (linked_link.mpr (Or.inl ⟨rfl, rfl⟩)))
      next => exact Or.inl active
  next => exact Or.inl active

/-- Recorded sites stay recorded while the tables are filled. -/
private theorem linked_runStores (stores : List TableStore) (state : TableState) :
    (Linked state.fatsInCode name addr →
        Linked (runStores stores state).fatsInCode name addr) ∧
      (Linked state.vmtd name addr →
        Linked (runStores stores state).vmtd name addr) := by
  refine runStores_invariant
    (motive := fun current =>
      (Linked state.fatsInCode name addr →
        Linked current.fatsInCode name addr) ∧
      (Linked state.vmtd name addr → Linked current.vmtd name addr))
    ?_ ⟨id, id⟩
  intro store _ current kept
  cases store with
  | native target => exact kept
  | bary slot word => exact kept
  | returnAddr target activated word =>
      simp only [TableStore.exec]
      split <;> exact kept
  | funcAddr target function word =>
      simp only [TableStore.exec]
      split
      next =>
        split
        next =>
          exact ⟨fun old => linked_link.mpr (Or.inr (kept.1 old)), kept.2⟩
        next =>
          split
          next =>
            exact ⟨kept.1, fun old => linked_link.mpr (Or.inr (kept.2 old))⟩
          next => exact kept
      next => exact kept

/-- A pass activates each function entry that it stores, or records it. -/
theorem recorded_runStores
    {stores : List TableStore} {state : TableState}
    (apart : ∀ store ∈ stores, store.Apart addr)
    (ids : ∀ store ∈ stores, store.addr = addr →
      (∀ target, store ≠ .native target) ∧ store.word % 2 = 1 ∧
        store.word < 2 ^ 64)
    (listed : .funcAddr addr name id ∈ stores) :
    Active (runStores stores state).table addr ∨
      Linked (runStores stores state).fatsInCode name addr ∨
      Linked (runStores stores state).vmtd name addr := by
  induction stores generalizing state with
  | nil => cases listed
  | cons store rest inductionHypothesis =>
      have apartRest : ∀ store ∈ rest, store.Apart addr :=
        fun later member => apart later (List.mem_cons_of_mem _ member)
      have idsRest : ∀ store ∈ rest, store.addr = addr →
          (∀ target, store ≠ .native target) ∧ store.word % 2 = 1 ∧
            store.word < 2 ^ 64 :=
        fun later member => ids later (List.mem_cons_of_mem _ member)
      rw [runStores_cons]
      rcases List.mem_cons.mp listed with rfl | inRest
      · obtain ⟨_, odd, small⟩ := ids _ List.mem_cons_self rfl
        rcases recorded_exec state odd small with active | inCode | inVmtd
        · exact Or.inl ((odd_load64_runStores apartRest idsRest).mpr
            (Or.inl active))
        · exact Or.inr (Or.inl ((linked_runStores rest _).1 inCode))
        · exact Or.inr (Or.inr ((linked_runStores rest _).2 inVmtd))
      · exact inductionHypothesis apartRest idsRest inRest

/-- A generation activates each function entry with an id, or records it. -/
theorem recorded_genCfg
    {attrs : UInt8} {before after : Runtime} {cfg : CfgData}
    (computed : computeCfg attrs before = .ok cfg)
    (returned : genCfg attrs before = .ok after)
    (apart : WordsApart before.modules addr) {codeModule : CodeModule}
    (loaded : codeModule ∈ before.modules)
    (instrumented : codeModule.instrumented = true) {sym : Symbol}
    (listed : sym ∈ codeModule.funcsyms)
    (here : codeModule.baseAddr + sym.offset = addr)
    (hasId : markFunc sym.name ∈ cfg.tables.callids) :
    Active after.table addr ∨ Linked after.fatsInCode sym.name addr ∨
      Linked after.vmtd sym.name addr := by
  obtain ⟨other, otherComputed, outcome⟩ := genCfg_result returned
  rw [computed] at otherComputed
  cases otherComputed
  obtain ⟨facts⟩ := computeCfg_facts computed
  obtain ⟨id, found⟩ := OrdDict.exists_find_of_mem hasId
  have stored : TableStore.funcAddr addr sym.name id ∈
      tableUpdate cfg.tables before.modules :=
    mem_tableUpdate.mpr ⟨codeModule, loaded, Or.inl
      ((mem_genTary_instrumented instrumented).mpr
        (Or.inl ⟨sym, listed, id, found, by rw [here]⟩))⟩
  rw [outcome.tableIs, outcome.fatsInCodeIs, outcome.vmtdIs]
  exact (recorded_runStores (fun _ member => apart.stores member)
    (fun _ member same => apart.ids facts member same) stored).imp_left
      Active.compensated

end Recording

section Reviving

/-- The graphs from which a generation takes its ids. -/
theorem computeCfg_graphs
    {attrs : UInt8} {runtime : Runtime} {cfg : CfgData}
    (computed : computeCfg attrs runtime = .ok cfg) :
    ∃ allFuncs, buildCallgraph attrs (mergeMcfiMetainfo runtime.modules) =
        .ok (cfg.callgraph, allFuncs) ∧
      cfg.retgraph = buildRetgraph cfg.callgraph allFuncs runtime.modules := by
  unfold computeCfg at computed
  rw [bind_eq_ok] at computed
  obtain ⟨⟨callgraph, allFuncs⟩, built, computed⟩ := computed
  rw [bind_eq_ok] at computed
  obtain ⟨_, _, computed⟩ := computed
  rw [bind_eq_ok] at computed
  obtain ⟨_, _, computed⟩ := computed
  rw [bind_eq_ok] at computed
  obtain ⟨_, _, computed⟩ := computed
  rw [bind_eq_ok] at computed
  obtain ⟨_, _, computed⟩ := computed
  rw [bind_eq_ok] at computed
  obtain ⟨_, _, computed⟩ := computed
  rw [bind_eq_ok] at computed
  obtain ⟨_, _, stored⟩ := computed
  rw [pure_eq_ok] at stored
  subst stored
  exact ⟨allFuncs, built, rfl⟩

/-- The metadata makes a symbol a vertex of the graph that ids come from. -/
def TarySymbol.Vertex (attrs : UInt8) {runtime : Runtime}
    (target : TarySymbol runtime.modules) : Prop :=
  ∃ callgraph allFuncs,
    buildCallgraph attrs (mergeMcfiMetainfo runtime.modules) =
      .ok (callgraph, allFuncs) ∧
    match target.kind with
    | .function => target.node ∈ callgraph
    | .directReturn =>
        target.node ∈ buildRetgraph callgraph allFuncs runtime.modules
    | .indirectReturn =>
        target.node ∈ buildRetgraph callgraph allFuncs runtime.modules

/-- A generation stores the word of a symbol active, whatever was there. -/
def TarySymbol.NeedsNoPatch {runtime : Runtime}
    (target : TarySymbol runtime.modules) : Prop :=
  match target.kind with
  | .function =>
      target.sym.name ∉ directFatsInCode (mergeMcfiMetainfo runtime.modules) ∧
        target.sym.name ∉ directVmtd runtime
  | .directReturn => target.codeModule.activated = true
  | .indirectReturn => target.codeModule.activated = true

/-- A word that is active, or that the next generation activates. -/
def ActiveNext (attrs : UInt8) (runtime : Runtime) (addr : Nat) : Prop :=
  Active runtime.table addr ∨ CatchesUp runtime addr ∨
    ∃ target : TarySymbol runtime.modules,
      target.codeModule.instrumented = true ∧ target.addr = addr ∧
        target.Vertex attrs ∧ target.NeedsNoPatch

variable {attrs : UInt8} {before after : Runtime} {cfg : CfgData}

/-- The symbols with an id are the vertices. -/
theorem TarySymbol.id_iff_vertex
    (computed : computeCfg attrs before = .ok cfg)
    (target : TarySymbol before.modules) :
    (∃ id, target.id cfg.tables = some id) ↔ target.Vertex attrs := by
  obtain ⟨allFuncs, built, retgraphIs⟩ := computeCfg_graphs computed
  obtain ⟨facts⟩ := computeCfg_facts computed
  have present : (∃ id, target.id cfg.tables = some id) ↔
      target.node ∈ target.kind.ids cfg.tables :=
    ⟨fun ⟨_, found⟩ => OrdDict.mem_of_find found, OrdDict.exists_find_of_mem⟩
  rw [present]
  have callIds := facts.assignment.callIds.memIff target.node
  have retIds := facts.assignment.retIds.memIff target.node
  constructor
  · intro member
    refine ⟨cfg.callgraph, allFuncs, built, ?_⟩
    rw [← retgraphIs]
    cases kind : target.kind with
    | function =>
        rw [kind] at member
        exact callIds.mp member
    | directReturn =>
        rw [kind] at member
        exact retIds.mp member
    | indirectReturn =>
        rw [kind] at member
        exact retIds.mp member
  · rintro ⟨callgraph, otherFuncs, otherBuilt, vertex⟩
    rw [built] at otherBuilt
    cases otherBuilt
    rw [← retgraphIs] at vertex
    cases kind : target.kind with
    | function =>
        rw [kind] at vertex
        exact callIds.mpr vertex
    | directReturn =>
        rw [kind] at vertex
        exact retIds.mpr vertex
    | indirectReturn =>
        rw [kind] at vertex
        exact retIds.mpr vertex

/-- Catching up on early calls activates their return addresses. -/
theorem active_compensated {addr : Nat} (caught : CatchesUp before addr) :
    Active (compensated cfg before) addr := by
  obtain ⟨notGenerated, entry, kept, rfl⟩ := caught
  rw [compensated, if_neg (by simp [notGenerated])]
  exact active_foldl (OrdDict.mem_keys.mpr kept)
    (fun current => active_setBit0 current entry.addr)
    (fun other _ _ held => held.setBit0 other.addr)

/-- The next generation activates what it is said to activate. -/
theorem ActiveNext.active {addr : Nat}
    (next : ActiveNext attrs before addr)
    (returned : genCfg attrs before = .ok after)
    (apart : WordsApart before.modules addr) : Active after.table addr := by
  rcases next with active | caught | ⟨target, instrumented, here, vertex, needsNo⟩
  · exact apart.active_genCfg returned active
  · obtain ⟨cfg, _, outcome⟩ := genCfg_result returned
    rw [outcome.tableIs]
    exact active_compensated caught
  · obtain ⟨cfg, computed, outcome⟩ := genCfg_result returned
    obtain ⟨facts⟩ := computeCfg_facts computed
    obtain ⟨id, found⟩ := (target.id_iff_vertex computed).mpr vertex
    rw [outcome.tableIs]
    apply Active.compensated
    refine (odd_load64_runStores (fun _ member => apart.stores member)
      fun _ member same => apart.ids facts member same).mpr (Or.inr ?_)
    rw [facts.fatsInCodeIs, facts.vmtdIs]
    obtain ⟨codeModule, loaded, kind, sym, listed⟩ := target
    cases kind with
    | function =>
        exact ⟨_, mem_tableUpdate.mpr ⟨codeModule, loaded, Or.inl
          ((mem_genTary_instrumented instrumented).mpr
            (Or.inl ⟨sym, listed, id, found, rfl⟩))⟩, here, needsNo⟩
    | directReturn =>
        exact ⟨_, mem_tableUpdate.mpr ⟨codeModule, loaded, Or.inl
          ((mem_genTary_instrumented instrumented).mpr
            (Or.inr (Or.inl ⟨sym, listed, id, found, rfl⟩)))⟩, here, needsNo⟩
    | indirectReturn =>
        exact ⟨_, mem_tableUpdate.mpr ⟨codeModule, loaded, Or.inl
          ((mem_genTary_instrumented instrumented).mpr
            (Or.inr (Or.inr ⟨sym, listed, id, found, rfl⟩)))⟩, here, needsNo⟩

end Reviving

section Entries

/--
The calls that load, generate and patch.  A function entry may mark a landing pad
only where no symbol is.
-/
def Call.Tracks (before : Tracked) : Call → Prop
  | .load _ => True
  | .generate _ => True
  | .patchAt _ => True
  | .patchEntry patchpoint => ∀ codeModule,
      findModule before.runtime.modules patchpoint = some codeModule →
        ∀ key ∈ codeModule.flp.targets (patchpoint - codeModule.baseAddr),
          ∀ target : TarySymbol before.runtime.modules,
            codeModule.baseAddr + key ≠ target.addr
  | .patchCall _ => True
  | .takeAddress _ _ => False
  | .createHeap _ _ _ _ => False
  | .fill _ _ _ _ _ => False
  | .register _ _ => False

variable {before after : Tracked} {call : Call} {name : Name} {addr : Nat}

/-- An entry is at the address of a symbol. -/
theorem Tracked.CallEntry.symbol (entry : before.CallEntry name addr) :
    ∃ target : TarySymbol before.runtime.modules, target.addr = addr ∧
      target.codeModule.instrumented = true ∧ target.kind = .function ∧
      target.sym.name = name := by
  obtain ⟨⟨m, loaded, _, instrumented, sym, listed, named, here⟩, _⟩ := entry
  exact ⟨⟨m, loaded, .function, sym, listed⟩, here, instrumented, rfl, named⟩

/-- What a call keeps of the words. -/
theorem words_tracked (tracks : call.Tracks before)
    (returned : call.run before.runtime = .ok after.runtime) :
    KeepsView CodeModule.words before.runtime.modules
      after.runtime.modules := by
  cases call with
  | load parsed =>
      rw [← Except.ok.inj returned]
      exact KeepsView.append _ _
  | generate attrs => exact KeepsView.of_map_eq (words_genCfg returned)
  | patchAt patchpoint =>
      obtain ⟨_, _, _, same, _⟩ := patchAt_cases returned
      rw [same]
      exact KeepsView.refl _
  | patchEntry patchpoint =>
      obtain ⟨_, _, _, _, _, _, _, _, same, _⟩ := patchEntry_cases returned
      rw [same]
      exact KeepsView.of_map_eq (map_modifyModule _ _ fun _ => rfl)
  | patchCall patchpoint =>
      rcases patchCall_cases returned with same | ⟨_, _, _, _, _, _, same⟩
      · rw [same]
        exact KeepsView.refl _
      · rw [same]
        exact KeepsView.refl _
  | takeAddress attrs funcAddr => exact tracks.elim
  | createHeap ph page size verifier => exact tracks.elim
  | fill bufferAddr handle dst src extra => exact tracks.elim
  | register handle metadata => exact tracks.elim

/-- A call keeps the word of a symbol active when nothing lies across it. -/
theorem active_tracked (tracks : call.Tracks before)
    (returned : call.run before.runtime = .ok after.runtime)
    (target : TarySymbol before.runtime.modules)
    (apart : WordsApart after.runtime.modules target.addr)
    (active : Active before.runtime.table target.addr) :
    Active after.runtime.table target.addr := by
  have apartBefore := apart.mono (words_tracked tracks returned)
  have spares : call.Spares target.addr before.runtime := by
    cases call with
    | load parsed =>
        rw [← Except.ok.inj returned] at apart
        exact apart
    | generate attrs => trivial
    | patchAt patchpoint => trivial
    | patchEntry patchpoint =>
        exact fun codeModule located key listed =>
          tracks codeModule located key listed target
    | patchCall patchpoint => trivial
    | takeAddress attrs funcAddr => exact tracks.elim
    | createHeap ph page size verifier => exact tracks.elim
    | fill bufferAddr handle dst src extra => exact tracks.elim
    | register handle metadata => exact tracks.elim
  exact (spares.keeps returned apartBefore).2 active

/-- Apart from generations, an entry was there before the call. -/
theorem callEntry_old (tracks : call.Tracks before)
    (notGenerate : ∀ attrs, call ≠ .generate attrs)
    (returned : call.run before.runtime = .ok after.runtime)
    (nextIs : after = before.next call after.runtime)
    (entry : after.CallEntry name addr) : before.CallEntry name addr := by
  have sameTables : after.tables = before.tables := by
    rw [nextIs]
    cases call <;> first | rfl | exact absurd rfl (notGenerate _)
  obtain ⟨⟨m, loaded, covered, instrumented, found⟩, tables, tablesAre, hasId⟩ :=
    entry
  refine ⟨?_, tables, sameTables ▸ tablesAre, hasId⟩
  cases call with
  | load parsed =>
      rw [← Except.ok.inj returned] at loaded
      rcases List.mem_append.mp loaded with old | new
      · exact ⟨m, old, covered, instrumented, found⟩
      · rw [List.mem_singleton.mp new] at covered
        cases covered
  | generate attrs => exact (notGenerate attrs rfl).elim
  | patchAt patchpoint =>
      obtain ⟨_, _, _, same, _⟩ := patchAt_cases returned
      rw [same] at loaded
      exact ⟨m, loaded, covered, instrumented, found⟩
  | patchEntry patchpoint =>
      obtain ⟨_, _, _, _, _, _, _, _, same, _⟩ := patchEntry_cases returned
      have kept : after.runtime.modules.map (fun m =>
          (m.cfggened, m.instrumented, m.funcsyms, m.baseAddr)) =
          before.runtime.modules.map fun m =>
            (m.cfggened, m.instrumented, m.funcsyms, m.baseAddr) := by
        rw [same]
        exact map_modifyModule _ _ fun _ => rfl
      obtain ⟨old, oldLoaded, sameView⟩ :=
        (KeepsView.of_map_eq kept.symm).exists_mem loaded
      simp only [Prod.mk.injEq] at sameView
      obtain ⟨sameCovered, sameFlag, sameSyms, sameBase⟩ := sameView
      rw [← sameSyms, ← sameBase] at found
      exact ⟨old, oldLoaded, sameCovered.trans covered,
        sameFlag.trans instrumented, found⟩
  | patchCall patchpoint =>
      rcases patchCall_cases returned with same | ⟨_, _, _, _, _, _, same⟩
      · rw [same] at loaded
        exact ⟨m, loaded, covered, instrumented, found⟩
      · rw [same] at loaded
        exact ⟨m, loaded, covered, instrumented, found⟩
  | takeAddress attrs funcAddr => exact tracks.elim
  | createHeap ph page size verifier => exact tracks.elim
  | fill bufferAddr handle dst src extra => exact tracks.elim
  | register handle metadata => exact tracks.elim

/-- After a generation an entry is one that the generation has stored. -/
theorem callEntry_generated
    {attrs : UInt8} (nextIs : after = before.next (.generate attrs) after.runtime)
    (returned : genCfg attrs before.runtime = .ok after.runtime)
    (entry : after.CallEntry name addr) :
    ∃ (cfg : CfgData) (target : TarySymbol before.runtime.modules),
      computeCfg attrs before.runtime = .ok cfg ∧
      target.codeModule.instrumented = true ∧ target.kind = .function ∧
      target.sym.name = name ∧ target.addr = addr ∧
      markFunc name ∈ cfg.tables.callids := by
  obtain ⟨⟨m, loaded, _, instrumented, sym, listed, named, here⟩, tables,
    tablesAre, hasId⟩ := entry
  obtain ⟨cfg, computed, outcome⟩ := genCfg_result returned
  rw [nextIs] at tablesAre
  simp only [Tracked.next, computed, Except.toOption, Option.map_some,
    Option.some.injEq] at tablesAre
  subst tablesAre
  rw [outcome.modulesAre] at loaded
  obtain ⟨old, oldLoaded, rfl⟩ := List.mem_map.mp loaded
  exact ⟨cfg, ⟨old, oldLoaded, .function, sym, listed⟩, computed, instrumented,
    rfl, named, here, hasId⟩

/-- An entry is active, or it waits under the name of its function. -/
def Tracked.Recorded (state : Tracked) : Prop :=
  ∀ name addr, state.CallEntry name addr →
    WordsApart state.runtime.modules addr →
      Active state.runtime.table addr ∨
        Linked state.runtime.fatsInCode name addr ∨
        Linked state.runtime.vmtd name addr

/-- Every call keeps the inactive entries recorded. -/
theorem Tracked.Recorded.step (recorded : before.Recorded)
    (tracks : call.Tracks before)
    (returned : call.run before.runtime = .ok after.runtime)
    (nextIs : after = before.next call after.runtime) : after.Recorded := by
  intro name addr entry apart
  by_cases generates : ∃ attrs, call = .generate attrs
  · obtain ⟨attrs, rfl⟩ := generates
    obtain ⟨cfg, target, computed, instrumented, kind, rfl, here, hasId⟩ :=
      callEntry_generated nextIs returned entry
    obtain ⟨codeModule, loaded, _, sym, listed⟩ := target
    cases kind
    exact recorded_genCfg computed returned
      (apart.mono (words_tracked tracks returned)) loaded instrumented listed
      here hasId
  · have old : before.CallEntry name addr := callEntry_old tracks
      (fun attrs same => generates ⟨attrs, same⟩) returned nextIs entry
    obtain ⟨target, rfl, _⟩ := old.symbol
    have kept : Active before.runtime.table target.addr →
        Active after.runtime.table target.addr :=
      active_tracked tracks returned target apart
    rcases recorded name target.addr old
      (apart.mono (words_tracked tracks returned)) with active | waiting
    · exact Or.inl (kept active)
    · cases call with
      | load parsed =>
          rw [← Except.ok.inj returned]
          exact Or.inr waiting
      | generate attrs => exact (generates ⟨attrs, rfl⟩).elim
      | patchAt patchpoint =>
          obtain ⟨_, patched, _, _, _, _, same⟩ := patchAt_ok returned
          rw [same]
          rcases waiting with inCode | inVmtd
          · by_cases here : name = patched
            · subst here
              exact Or.inl (active_sites (mem_targets.mpr inCode))
            · obtain ⟨sites, found, listed⟩ := inCode
              refine Or.inr (Or.inl ⟨sites, ?_, listed⟩)
              simp only [gDelVertex]
              rw [OrdDict.find_erase, if_neg here]
              exact found
          · exact Or.inr (Or.inr inVmtd)
      | patchEntry patchpoint =>
          obtain ⟨_, _, _, _, _, _, _, _, same, _⟩ := patchEntry_cases returned
          rw [same]
          exact Or.inr waiting
      | patchCall patchpoint =>
          rcases patchCall_cases returned with same | ⟨_, _, _, _, _, _, same⟩
          · rw [same]
            exact Or.inr waiting
          · rw [same]
            exact Or.inr waiting
      | takeAddress attrs funcAddr => exact tracks.elim
      | createHeap ph page size verifier => exact tracks.elim
      | fill bufferAddr handle dst src extra => exact tracks.elim
      | register handle metadata => exact tracks.elim

/-- Before anything is loaded there is no entry. -/
theorem Tracked.recorded_boot : Tracked.boot.Recorded := by
  rintro name addr ⟨_, tables, none, _⟩
  cases none

end Entries

section Taken

/--
A call that loads, generates, or patches an address-taking site or a call.  A
patched site leaves no entry of its function that waits for a constructor, and a
generation activates the entries of the functions patched out.
-/
def Call.CoversTaken (before : Tracked) : Call → Prop
  | .load _ => True
  | .patchCall _ => True
  | .patchAt patchpoint => ∀ name,
      Tracked.siteName before.runtime patchpoint = some name →
        ∀ site, Linked before.runtime.vmtd name site →
          Active before.runtime.table site
  | .generate attrs => ∀ name ∈ before.patchedOut,
      ∀ target : TarySymbol before.runtime.modules,
        target.codeModule.instrumented = true → target.kind = .function →
          target.sym.name = name → target.Vertex attrs →
            ActiveNext attrs before.runtime target.addr
  | _ => False

/-- What these calls preserve. -/
structure TakenInvariant (state : Tracked) : Prop where
  recorded : state.Recorded
  taken : ∀ name ∈ state.patchedOut, ∀ addr, state.CallEntry name addr →
    WordsApart state.runtime.modules addr → Active state.runtime.table addr
  kept : state.runtime.cfggened = false → ∀ patchpoint ∈ state.runtime.patchedRa,
    roundUp8 patchpoint ∈ state.runtime.patchCompensate
  restored : state.runtime.cfggened = true →
    ∀ patchpoint ∈ state.runtime.patchedRa,
      WordsApart state.runtime.modules (roundUp8 patchpoint).addr →
        Active state.runtime.table (roundUp8 patchpoint).addr

variable {before after : Tracked} {call : Call}

/-- These calls are among those that are tracked. -/
theorem Call.CoversTaken.tracks (covers : call.CoversTaken before) :
    call.Tracks before := by
  cases call with
  | load parsed => trivial
  | generate attrs => trivial
  | patchAt patchpoint => trivial
  | patchCall patchpoint => trivial
  | patchEntry patchpoint => exact covers.elim
  | takeAddress attrs funcAddr => exact covers.elim
  | createHeap ph page size verifier => exact covers.elim
  | fill bufferAddr handle dst src extra => exact covers.elim
  | register handle metadata => exact covers.elim

/-- These calls keep every word active that nothing lies across. -/
theorem Call.CoversTaken.active (covers : call.CoversTaken before)
    (returned : call.run before.runtime = .ok after.runtime) {addr : Nat}
    (apart : WordsApart after.runtime.modules addr)
    (active : Active before.runtime.table addr) :
    Active after.runtime.table addr := by
  have apartBefore := apart.mono (words_tracked covers.tracks returned)
  have spares : call.Spares addr before.runtime := by
    cases call with
    | load parsed =>
        rw [← Except.ok.inj returned] at apart
        exact apart
    | generate attrs => trivial
    | patchAt patchpoint => trivial
    | patchCall patchpoint => trivial
    | patchEntry patchpoint => exact covers.elim
    | takeAddress attrs funcAddr => exact covers.elim
    | createHeap ph page size verifier => exact covers.elim
    | fill bufferAddr handle dst src extra => exact covers.elim
    | register handle metadata => exact covers.elim
  exact (spares.keeps returned apartBefore).2 active

/-- The entries of the functions patched out become and stay active. -/
private theorem TakenInvariant.stepTaken (invariant : TakenInvariant before)
    (covers : call.CoversTaken before)
    (returned : call.run before.runtime = .ok after.runtime)
    (nextIs : after = before.next call after.runtime) :
    ∀ name ∈ after.patchedOut, ∀ addr, after.CallEntry name addr →
      WordsApart after.runtime.modules addr →
        Active after.runtime.table addr := by
  intro name patched addr entry apart
  by_cases generates : ∃ attrs, call = .generate attrs
  · obtain ⟨attrs, rfl⟩ := generates
    obtain ⟨cfg, target, computed, instrumented, kind, named, rfl, hasId⟩ :=
      callEntry_generated nextIs returned entry
    have old : name ∈ before.patchedOut := by
      rw [nextIs] at patched
      exact patched
    have vertex : target.Vertex attrs := by
      apply (target.id_iff_vertex computed).mp
      apply OrdDict.exists_find_of_mem
      rw [kind, TarySymbol.node, kind, named]
      exact hasId
    exact (covers name old target instrumented kind named vertex).active
      returned (apart.mono (@words_tracked before after (.generate attrs) trivial
        returned))
  · have oldEntry : before.CallEntry name addr := callEntry_old covers.tracks
      (fun attrs same => generates ⟨attrs, same⟩) returned nextIs entry
    have apartBefore := apart.mono (words_tracked covers.tracks returned)
    have kept : Active before.runtime.table addr →
        Active after.runtime.table addr := covers.active returned apart
    by_cases old : name ∈ before.patchedOut
    · exact kept (invariant.taken name old addr oldEntry apartBefore)
    · cases call with
      | patchAt patchpoint =>
          obtain ⟨codeModule, found, located, _, known, _, same⟩ :=
            patchAt_ok returned
          have site : Tracked.siteName before.runtime patchpoint =
              some found := by
            simp [Tracked.siteName, located, dictFind, known]
          have isFound : name = found := by
            rw [nextIs] at patched
            simpa [Tracked.next, site, old] using patched
          subst isFound
          rcases invariant.recorded name addr oldEntry apartBefore with
            active | inCode | inVmtd
          · exact kept active
          · rw [same]
            exact active_sites (mem_targets.mpr inCode)
          · exact kept (covers name site addr inVmtd)
      | generate attrs => exact (generates ⟨attrs, rfl⟩).elim
      | load parsed =>
          rw [nextIs] at patched
          exact (old patched).elim
      | patchCall patchpoint =>
          rw [nextIs] at patched
          exact (old patched).elim
      | patchEntry patchpoint => exact covers.elim
      | takeAddress attrs funcAddr => exact covers.elim
      | createHeap ph page size verifier => exact covers.elim
      | fill bufferAddr handle dst src extra => exact covers.elim
      | register handle metadata => exact covers.elim

/-- Before the first generation each patched call is kept for it. -/
private theorem TakenInvariant.stepKept (invariant : TakenInvariant before)
    (covers : call.CoversTaken before)
    (returned : call.run before.runtime = .ok after.runtime) :
    after.runtime.cfggened = false → ∀ patchpoint ∈ after.runtime.patchedRa,
      roundUp8 patchpoint ∈ after.runtime.patchCompensate := by
  cases call with
  | load parsed =>
      rw [← Except.ok.inj returned]
      exact invariant.kept
  | generate attrs =>
      obtain ⟨_, _, outcome⟩ := genCfg_result returned
      rw [outcome.cfggenedIs]
      exact fun never => nomatch never
  | patchAt patchpoint =>
      obtain ⟨_, _, _, same, _⟩ := patchAt_cases returned
      rw [same]
      exact invariant.kept
  | patchCall patchpoint =>
      obtain ⟨_, _, ⟨_, same⟩ | ⟨_, _, _, _, same⟩⟩ := patchCall_ok returned
      · rw [same]
        exact invariant.kept
      · rw [same]
        intro notGenerated
        simp only at notGenerated ⊢
        rw [notGenerated]
        intro other listed
        rcases OrdDict.mem_insertNew.mp listed with rfl | old
        · exact OrdDict.mem_insertNew.mpr (Or.inl rfl)
        · exact OrdDict.mem_insertNew.mpr
            (Or.inr (invariant.kept notGenerated other old))
  | patchEntry patchpoint => exact covers.elim
  | takeAddress attrs funcAddr => exact covers.elim
  | createHeap ph page size verifier => exact covers.elim
  | fill bufferAddr handle dst src extra => exact covers.elim
  | register handle metadata => exact covers.elim

/-- After the first generation the restored calls' return addresses are active. -/
private theorem TakenInvariant.stepRestored
    (invariant : TakenInvariant before) (covers : call.CoversTaken before)
    (returned : call.run before.runtime = .ok after.runtime) :
    after.runtime.cfggened = true → ∀ patchpoint ∈ after.runtime.patchedRa,
      WordsApart after.runtime.modules (roundUp8 patchpoint).addr →
        Active after.runtime.table (roundUp8 patchpoint).addr := by
  intro generated patchpoint patched apart
  have apartBefore := apart.mono (words_tracked covers.tracks returned)
  have kept := covers.active returned apart
  cases call with
  | load parsed =>
      rw [← Except.ok.inj returned] at generated patched
      exact kept (invariant.restored generated patchpoint patched apartBefore)
  | generate attrs =>
      rw [genCfg_patchedRa returned] at patched
      cases already : before.runtime.cfggened with
      | true =>
          exact kept (invariant.restored already patchpoint patched apartBefore)
      | false =>
          have caught : CatchesUp before.runtime (roundUp8 patchpoint).addr :=
            ⟨already, _, invariant.kept already patchpoint patched, rfl⟩
          have next : ActiveNext attrs before.runtime (roundUp8 patchpoint).addr :=
            Or.inr (Or.inl caught)
          exact next.active returned apartBefore
  | patchAt site =>
      obtain ⟨_, _, _, same, _⟩ := patchAt_cases returned
      rw [same] at generated patched
      exact kept (invariant.restored generated patchpoint patched apartBefore)
  | patchCall own =>
      obtain ⟨_, _, ⟨_, same⟩ | ⟨_, _, _, _, same⟩⟩ := patchCall_ok returned
      · rw [same] at generated patched
        exact kept (invariant.restored generated patchpoint patched apartBefore)
      · rw [same] at generated patched
        rcases OrdDict.mem_insertNew.mp patched with rfl | old
        · rw [same]
          simp only at generated ⊢
          rw [generated]
          exact active_setBit0 _ _
        · exact kept (invariant.restored generated patchpoint old apartBefore)
  | patchEntry site => exact covers.elim
  | takeAddress attrs funcAddr => exact covers.elim
  | createHeap ph page size verifier => exact covers.elim
  | fill bufferAddr handle dst src extra => exact covers.elim
  | register handle metadata => exact covers.elim

/-- The states that calls reach, when a predicate admits each of them. -/
def TakingRun (admits : Tracked → Call → Prop) : Tracked → Prop :=
  Relation.ReflTransGen
    (fun before after => ∃ call, TrackedStep admits before call after)
    Tracked.boot

/-- A run goes on with an admitted call that returns. -/
theorem TakingRun.next {admits : Tracked → Call → Prop} {before : Tracked}
    (run : TakingRun admits before) (call : Call) {after : Runtime}
    (admitted : admits before call)
    (returned : call.run before.runtime = .ok after) :
    TakingRun admits (before.next call after) :=
  Relation.ReflTransGen.tail run ⟨call, admitted, returned, rfl⟩

/--
In every run whose calls cover the functions patched out, after the first
generation every entry of such a function with a call id is active, and so is
every return address whose call has been restored.
-/
theorem taken_addresses_active {state : Tracked}
    (run : TakingRun (fun before call => call.CoversTaken before) state) :
    (∀ name ∈ state.patchedOut, ∀ addr, state.CallEntry name addr →
      WordsApart state.runtime.modules addr →
        Active state.runtime.table addr) ∧
    (state.runtime.cfggened = true →
      ∀ patchpoint ∈ state.runtime.patchedRa,
        WordsApart state.runtime.modules (roundUp8 patchpoint).addr →
          Active state.runtime.table (roundUp8 patchpoint).addr) := by
  have invariant : TakenInvariant state := by
    induction run with
    | refl =>
        exact ⟨Tracked.recorded_boot, (fun _ never => nomatch never),
          (fun _ _ never => nomatch never), (fun never => nomatch never)⟩
    | tail _ step inductionHypothesis =>
        obtain ⟨call, covers, returned, nextIs⟩ := step
        exact ⟨inductionHypothesis.recorded.step covers.tracks returned nextIs,
          inductionHypothesis.stepTaken covers returned nextIs,
          inductionHypothesis.stepKept covers returned,
          inductionHypothesis.stepRestored covers returned⟩
  exact ⟨invariant.taken, invariant.restored⟩

end Taken

section Examples

/-- The calls of a program whose functions are not patched at their entries. -/
def Call.TakesOrCalls (_ : Tracked) : Call → Prop
  | .load _ => True
  | .generate _ => True
  | .patchAt _ => True
  | .patchCall _ => True
  | _ => False

namespace TakenExample

open EnforcedExample

/-- A function whose address is taken by one site. -/
def takenModule : CodeModule :=
  { moduleAt 0x400000 programBase_aligned [] [] with
    fatsInData := ∅
    fatsInCode := (∅ : KeySet Name).insertNew (Name.ofPtr 16) ()
    atFunc := (∅ : OrdDict Nat Name).insertNew 8 (Name.ofPtr 16) }

/-- The process has loaded the module. -/
def loaded : Runtime :=
  loadElf takenModule Runtime.boot

/-- The same, tracked from the start. -/
def started : Tracked :=
  Tracked.boot.next (.load takenModule) loaded

/-- The site has been patched before the CFG was generated. -/
def early : Rt Runtime :=
  patchAt 0x400008 loaded

/-- No other word lies across the one of the function. -/
theorem apart_taken : WordsApart loaded.modules 0x400000 where
  targets := by
    rintro ⟨m, isLoaded, kind, sym, listed⟩ _
    cases List.mem_singleton.mp isLoaded
    cases kind with
    | function =>
        cases List.mem_singleton.mp listed
        exact Or.inl rfl
    | directReturn => cases listed
    | indirectReturn => cases listed
  slots := by
    rintro ⟨m, isLoaded, sym, listed⟩
    cases List.mem_singleton.mp isLoaded
    cases listed
  native := by
    intro m isLoaded isNative
    cases List.mem_singleton.mp isLoaded
    cases isNative

/-- After a generation the function has an entry, if it has an id. -/
theorem entry_generated {before : Tracked} {after : Runtime} {cfg : CfgData}
    (modulesAre : before.runtime.modules = loaded.modules)
    (computed : computeCfg 0 before.runtime = .ok cfg)
    (returned : genCfg 0 before.runtime = .ok after)
    (hasId : markFunc (Name.ofPtr 16) ∈ cfg.tables.callids) :
    (before.next (.generate 0) after).CallEntry (Name.ofPtr 16) 0x400000 := by
  obtain ⟨_, _, outcome⟩ := genCfg_result returned
  refine ⟨?_, cfg.tables, ?_, hasId⟩
  · simp only [Tracked.next]
    rw [outcome.modulesAre, modulesAre]
    exact ⟨_, List.mem_singleton.mpr rfl, rfl, rfl, ⟨Name.ofPtr 16, 0⟩,
      List.mem_singleton.mpr rfl, rfl, rfl⟩
  · simp only [Tracked.next, computed]
    rfl

end TakenExample

open TakenExample in
/-- A site that is patched before the first generation is lost. -/
theorem early_site_lost :
    ¬ ∀ state : Tracked, TakingRun Call.TakesOrCalls state →
      state.runtime.cfggened = true →
        ∀ name ∈ state.patchedOut, ∀ addr, state.CallEntry name addr →
          WordsApart state.runtime.modules addr →
            Active state.runtime.table addr := by
  intro active
  have computed : (do
      let before ← early
      let cfg ← computeCfg 0 before
      let after ← genCfg 0 before
      return (decide (markFunc (Name.ofPtr 16) ∈ cfg.tables.callids),
        after.table.load64 0x400000 % 2)).toOption = some (true, 0) := by
    decide +kernel
  cases patches : early with
  | error fault => simp [patches, bind, Except.bind, Except.toOption] at computed
  | ok before =>
      cases computes : computeCfg 0 before with
      | error fault =>
          simp [patches, computes, bind, Except.bind, Except.toOption]
            at computed
      | ok cfg =>
          cases generates : genCfg 0 before with
          | error fault =>
              simp [patches, computes, generates, bind, Except.bind,
                Except.toOption] at computed
          | ok after =>
              simp only [patches, computes, generates, bind, Except.bind,
                pure, Except.pure, Except.toOption, Option.some.injEq,
                Prod.mk.injEq, decide_eq_true_eq] at computed
              have sameModules : before.modules = loaded.modules := by
                obtain ⟨_, _, _, same, _⟩ := patchAt_cases patches
                rw [same]
              have loadedRun : TakingRun Call.TakesOrCalls
                  (Tracked.boot.next (.load takenModule) loaded) :=
                TakingRun.next .refl (.load takenModule) trivial rfl
              have patchedRun := loadedRun.next (.patchAt 0x400008) trivial
                patches
              have run := patchedRun.next (.generate 0) trivial generates
              have apart : WordsApart after.modules 0x400000 := by
                refine apart_taken.mono (KeepsView.of_map_eq ?_)
                rw [words_genCfg generates, sameModules]
              have generated : after.cfggened = true := by
                obtain ⟨_, _, outcome⟩ := genCfg_result generates
                exact outcome.cfggenedIs
              have odd : Active after.table 0x400000 :=
                active _ run generated (Name.ofPtr 16) List.mem_cons_self
                  0x400000 (entry_generated sameModules computes generates
                    computed.1) apart
              rw [Active, computed.2] at odd
              cases odd

open TakenExample in
/-- A site that is patched after the generation activates its function. -/
theorem taken_addresses_active_site :
    ∃ state : Tracked, Name.ofPtr 16 ∈ state.patchedOut ∧
      state.CallEntry (Name.ofPtr 16) 0x400000 ∧
        Active state.runtime.table 0x400000 := by
  have computed : (do
      let cfg ← computeCfg 0 loaded
      let middle ← genCfg 0 loaded
      let _ ← patchAt 0x400008 middle
      return (decide (markFunc (Name.ofPtr 16) ∈ cfg.tables.callids),
        middle.vmtd.targets (Name.ofPtr 16))).toOption = some (true, []) := by
    decide +kernel
  cases computes : computeCfg 0 loaded with
  | error fault =>
      simp [computes, bind, Except.bind, Except.toOption] at computed
  | ok cfg =>
      cases generates : genCfg 0 loaded with
      | error fault =>
          simp [computes, generates, bind, Except.bind, Except.toOption]
            at computed
      | ok middle =>
          cases patches : patchAt 0x400008 middle with
          | error fault =>
              simp [computes, generates, patches, bind, Except.bind,
                Except.toOption] at computed
          | ok after =>
              simp only [computes, generates, patches, bind, Except.bind,
                pure, Except.pure, Except.toOption, Option.some.injEq,
                Prod.mk.injEq, decide_eq_true_eq] at computed
              have coverGenerate : (Call.generate 0).CoversTaken started :=
                by rintro name ⟨⟩
              have middleIs : (started.next (.generate 0) middle).runtime =
                  middle := rfl
              have sited : Tracked.siteName middle 0x400008 =
                  some (Name.ofPtr 16) := by
                obtain ⟨_, _, outcome⟩ := genCfg_result generates
                rw [Tracked.siteName, outcome.modulesAre]
                rfl
              have coverPatch : (Call.patchAt 0x400008).CoversTaken
                  (started.next (.generate 0) middle) := by
                intro name named site linked
                rw [middleIs, sited] at named
                cases named
                have listed := mem_targets.mpr linked
                rw [middleIs, computed.2] at listed
                cases listed
              have loadedRun : TakingRun
                  (fun before call => call.CoversTaken before) started :=
                TakingRun.next .refl (.load takenModule) trivial rfl
              have run := (loadedRun.next (.generate 0) coverGenerate
                generates).next (.patchAt 0x400008) coverPatch patches
              have sameModules : after.modules = middle.modules := by
                obtain ⟨_, _, _, same, _⟩ := patchAt_cases patches
                rw [same]
              have patched : Name.ofPtr 16 ∈
                  ((started.next (.generate 0) middle).next (.patchAt 0x400008)
                    after).patchedOut := by
                simp [Tracked.next, sited]
              have entry : ((started.next (.generate 0) middle).next
                  (.patchAt 0x400008) after).CallEntry (Name.ofPtr 16)
                    0x400000 := by
                have known : (started.next (.generate 0) middle).CallEntry
                    (Name.ofPtr 16) 0x400000 :=
                  entry_generated rfl computes generates computed.1
                obtain ⟨inModule, tables⟩ := known
                refine ⟨?_, tables⟩
                rw [middleIs, ← sameModules] at inModule
                exact inModule
              have apart : WordsApart after.modules 0x400000 := by
                refine apart_taken.mono (KeepsView.of_map_eq ?_)
                rw [sameModules, words_genCfg generates]
              exact ⟨_, patched, entry,
                (taken_addresses_active run).1 _ patched _ entry apart⟩

end Examples

end Mcfi
