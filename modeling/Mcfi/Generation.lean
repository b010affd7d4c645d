import Mcfi.Runtime

namespace Mcfi

open LinkMap ByteMem

/-!
# What one CFG generation computes

The facts that every returned `gen_cfg` comes with: its two graphs are
undirected, the ids are those of their components, the activation sets are what
`compute_fic` and `compute_tc_vmtd` make of an empty alias closure, and the table
is the old one after the passes.
-/

/-- Functions of names taken in code and not in data, by direct membership. -/
def directFatsInCode (info : Metainfo) : LinkMap Name Nat :=
  (info.fatsInCode.mapVal fun _ => (∅ : KeySet Nat)).filterKeys fun key =>
    !dictIn info.fatsInData key

/-- Virtual methods of the modules' vtables that wait for a constructor. -/
def directVmtd (runtime : Runtime) : LinkMap Name Nat :=
  runtime.modules.foldl (fun vmtd codeModule =>
    mergeDicts vmtd (getAllVmtd runtime.vtabletaken
      (mergeMcfiMetainfo runtime.modules).definedCtors codeModule.vtable)) ∅

/-- What a returned `computeCfg` has computed. -/
structure CfgFacts (attrs : UInt8) (runtime : Runtime) (cfg : CfgData) where
  allFuncs : LinkMap Name Function
  parts : CallgraphParts attrs (mergeMcfiMetainfo runtime.modules)
    cfg.callgraph allFuncs
  retgraphIs : cfg.retgraph =
    buildRetgraph cfg.callgraph allFuncs runtime.modules
  fatsInCodeIs : cfg.fatsInCode =
    directFatsInCode (mergeMcfiMetainfo runtime.modules)
  vmtdIs : cfg.vmtd = directVmtd runtime
  assignment : IdAssignment runtime.compatMode cfg.callgraph cfg.retgraph
    runtime.version cfg.tables

namespace CfgFacts

variable {attrs : UInt8} {runtime : Runtime} {cfg : CfgData}
  (facts : CfgFacts attrs runtime cfg)
include facts

/-- The call graph is undirected. -/
theorem callUndirected : Undirected cfg.callgraph :=
  facts.parts.undirected (undirected_cha runtime.modules)

/-- The return graph is undirected. -/
theorem retUndirected : Undirected cfg.retgraph := by
  rw [facts.retgraphIs]
  exact undirected_buildRetgraph facts.callUndirected _ _

end CfgFacts

/-- The alias closure that `gen_cfg` computes after destroying the graph. -/
theorem gTransitiveClosure_gDtor (aliases : LinkMap Name Name) :
    gTransitiveClosure (gDtor aliases) = .ok ∅ :=
  rfl

/-- With no alias closure `compute_fic` only subtracts. -/
theorem computeFic_empty (info : Metainfo) :
    computeFic (info.fatsInCode.mapVal fun _ => ∅) info.fatsInData ∅ =
      .ok (directFatsInCode info, info.fatsInData) :=
  rfl

/-- Every returned `computeCfg` has its facts. -/
theorem computeCfg_facts
    {attrs : UInt8} {runtime : Runtime} {cfg : CfgData}
    (runs : computeCfg attrs runtime = .ok cfg) :
    Nonempty (CfgFacts attrs runtime cfg) := by
  unfold computeCfg at runs
  rw [bind_eq_ok] at runs
  obtain ⟨⟨callgraph, allFuncs⟩, callgraphRuns, runs⟩ := runs
  rw [gTransitiveClosure_gDtor, bind_eq_ok] at runs
  obtain ⟨_, closureIs, runs⟩ := runs
  cases closureIs
  rw [computeFic_empty, bind_eq_ok] at runs
  obtain ⟨_, ficIs, runs⟩ := runs
  cases ficIs
  rw [bind_eq_ok] at runs
  obtain ⟨vmtd, vmtdRuns, runs⟩ := runs
  have vmtdIs : directVmtd runtime = vmtd := by
    simpa [computeTcVmtd, directVmtd] using vmtdRuns
  rw [bind_eq_ok] at runs
  obtain ⟨lcg, lcgRuns, runs⟩ := runs
  rw [bind_eq_ok] at runs
  obtain ⟨lrt, lrtRuns, runs⟩ := runs
  rw [bind_eq_ok] at runs
  obtain ⟨tables, tablesRun, stored⟩ := runs
  rw [pure_eq_ok] at stored
  subst stored
  obtain ⟨parts⟩ := buildCallgraph_parts (undirected_aliases runtime.modules)
    (undirected_cha runtime.modules) callgraphRuns
  have callUndirected := parts.undirected (undirected_cha runtime.modules)
  have retUndirected :=
    undirected_buildRetgraph callUndirected allFuncs runtime.modules
  obtain ⟨others, othersRun, ⟨assignment⟩⟩ := genMcfiId_ok runtime.compatMode
    callUndirected retUndirected runtime.version lcgRuns lrtRuns
  rw [tablesRun] at othersRun
  cases othersRun
  exact ⟨{
    allFuncs := allFuncs
    parts := parts
    retgraphIs := rfl
    fatsInCodeIs := rfl
    vmtdIs := vmtdIs.symm
    assignment := assignment }⟩

/-- The table after the activations that the first generation catches up on. -/
def compensated (cfg : CfgData) (runtime : Runtime) : ByteMem :=
  if runtime.cfggened then (fillTables cfg runtime).table
  else runtime.patchCompensate.keys.foldl
    (fun table entry => setBit0 table entry.addr) (fillTables cfg runtime).table

/-- What a returned `gen_cfg` changes. -/
structure GenCfgResult (cfg : CfgData) (runtime result : Runtime) : Prop where
  modulesAre : result.modules = runtime.modules.map fun codeModule =>
    { codeModule with cfggened := true }
  tableIs : result.table = compensated cfg runtime
  imageIs : result.image = runtime.image
  versionIs : result.version = cfg.tables.version
  compatModeIs : result.compatMode = runtime.compatMode
  cfggenedIs : result.cfggened = true
  fatsInCodeIs : result.fatsInCode = (fillTables cfg runtime).fatsInCode
  vmtdIs : result.vmtd = (fillTables cfg runtime).vmtd
  vtabletakenIs : result.vtabletaken = runtime.vtabletaken
  patchCompensateIs : result.patchCompensate =
    if runtime.cfggened then runtime.patchCompensate else ∅
  bidSlotIs : result.bidSlot = runtime.bidSlot
  icjTargetIs : result.icjTarget = runtime.icjTarget
  retOffsetIs : result.retOffset = runtime.retOffset

/-- A returned `gen_cfg` has computed a CFG and filled the tables with it. -/
theorem genCfg_result
    {attrs : UInt8} {runtime result : Runtime}
    (runs : genCfg attrs runtime = .ok result) :
    ∃ cfg, computeCfg attrs runtime = .ok cfg ∧
      GenCfgResult cfg runtime result := by
  unfold genCfg at runs
  rw [bind_eq_ok] at runs
  obtain ⟨cfg, cfgRuns, runs⟩ := runs
  rw [bind_eq_ok] at runs
  obtain ⟨versionSpace, _, runs⟩ := runs
  rw [bind_eq_ok] at runs
  obtain ⟨threadEscapeMap, _, stored⟩ := runs
  rw [pure_eq_ok] at stored
  subst stored
  exact ⟨cfg, cfgRuns, by constructor <;> rfl⟩

/-- A generation keeps the list of the calls patched out. -/
theorem genCfg_patchedRa
    {attrs : UInt8} {runtime result : Runtime}
    (runs : genCfg attrs runtime = .ok result) :
    result.patchedRa = runtime.patchedRa := by
  unfold genCfg at runs
  rw [bind_eq_ok] at runs
  obtain ⟨_, _, runs⟩ := runs
  rw [bind_eq_ok] at runs
  obtain ⟨_, _, runs⟩ := runs
  rw [bind_eq_ok] at runs
  obtain ⟨_, _, stored⟩ := runs
  rw [pure_eq_ok] at stored
  subst stored
  rfl

/-- Setting bit 0 of a word. -/
theorem load64_setBit0 (table : ByteMem) (addr : Nat) :
    (setBit0 table addr).load64 addr = table.load64 addr ||| 1 :=
  load64_store64_same table addr (Nat.or_lt_two_pow (load64_lt table addr) (by decide))

/-- `word | 1`, in arithmetic form. -/
theorem or_one (word : Nat) :
    word ||| 1 = word - word % 2 + 1 := by
  have joined := Nat.two_pow_add_eq_or_of_lt
    (show word % 2 ||| 1 < 2 ^ 1 by
      rcases Nat.mod_two_eq_zero_or_one word with even | odd
      · rw [even]; decide
      · rw [odd]; decide) (word / 2)
  have split : word = 2 * (word / 2) ||| word % 2 := by
    have parts := Nat.two_pow_add_eq_or_of_lt
      (show word % 2 < 2 ^ 1 by omega) (word / 2)
    rw [Nat.pow_one] at parts
    omega
  have low : word % 2 ||| 1 = 1 := by
    rcases Nat.mod_two_eq_zero_or_one word with even | odd
    · rw [even]; decide
    · rw [odd]; decide
  rw [Nat.pow_one, low] at joined
  calc word ||| 1 = (2 * (word / 2) ||| word % 2) ||| 1 := by rw [← split]
    _ = 2 * (word / 2) ||| (word % 2 ||| 1) := Nat.or_assoc _ _ _
    _ = 2 * (word / 2) + 1 := by rw [low, ← joined]
    _ = word - word % 2 + 1 := by omega

/-- Setting bit 0 of an aligned word changes no other aligned word. -/
theorem load64_setBit0_other (table : ByteMem) {addr query : Nat}
    (aligned : addr % 8 = 0) (queryAligned : query % 8 = 0)
    (different : query ≠ addr) :
    (setBit0 table addr).load64 query = table.load64 query :=
  load64_store64_aligned table aligned queryAligned different

/-- The activations only ever set bit 0 of aligned words. -/
theorem load64_foldl_setBit0 (entries : List WordAddr) (table : ByteMem)
    {query : Nat} (queryAligned : query % 8 = 0) :
    (entries.foldl (fun table entry => setBit0 table entry.addr)
        table).load64 query =
      if query ∈ entries.map WordAddr.addr then table.load64 query ||| 1
      else table.load64 query := by
  induction entries generalizing table with
  | nil =>
      simp
  | cons entry rest inductionHypothesis =>
      rw [List.foldl_cons, inductionHypothesis]
      simp only [List.map_cons, List.mem_cons]
      by_cases here : query = entry.addr
      · subst here
        rw [load64_setBit0]
        have again : ∀ word : Nat, word ||| 1 ||| 1 = word ||| 1 := by
          intro word
          rw [Nat.or_assoc]
          rfl
        simp [again]
      · rw [load64_setBit0_other table entry.aligned queryAligned here]
        simp [here]

/-- The first generation catches up on the activation of a word. -/
def CatchesUp (runtime : Runtime) (addr : Nat) : Prop :=
  runtime.cfggened = false ∧
    ∃ entry ∈ runtime.patchCompensate, entry.addr = addr

/-- The compensated table, word by word. -/
theorem load64_compensated (cfg : CfgData) (runtime : Runtime) {query : Nat}
    (queryAligned : query % 8 = 0) :
    (CatchesUp runtime query ∧ (compensated cfg runtime).load64 query =
        (fillTables cfg runtime).table.load64 query ||| 1) ∨
      (¬ CatchesUp runtime query ∧ (compensated cfg runtime).load64 query =
        (fillTables cfg runtime).table.load64 query) := by
  unfold compensated CatchesUp
  cases runtime.cfggened with
  | true => exact Or.inr ⟨by simp, rfl⟩
  | false =>
      rw [if_neg (by simp), load64_foldl_setBit0 _ _ queryAligned]
      by_cases caught : query ∈
          (OrdDict.keys runtime.patchCompensate).map WordAddr.addr
      · rw [if_pos caught]
        exact Or.inl ⟨⟨rfl, List.mem_map.mp caught⟩, rfl⟩
      · rw [if_neg caught]
        exact Or.inr ⟨fun ⟨_, entry⟩ => caught (List.mem_map.mpr entry), rfl⟩

end Mcfi
