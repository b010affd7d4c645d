import Mcfi.TableWords

namespace Mcfi

open LinkMap

/-!
# Activation sets and aliases

`gen_cfg` takes the alias closure for `compute_fic` and `compute_tc_vmtd` after
it has destroyed the alias graph, so both work with an empty closure.  The sets
they leave are closed under aliases only where the modules' metadata already is.
-/

/-- The names connected to a member of a set through the merged alias graph. -/
def AliasClosure (aliases : LinkMap Name Name) (names : KeySet Name)
    (name : Name) : Prop :=
  ∃ member ∈ names, Connected aliases member name

/--
The activation sets as they are meant to be: the names taken in code, less those
taken in data, both up to aliases, and a set of methods closed under aliases.
-/
def ActivationClosed (info : Metainfo) (result : Runtime) : Prop :=
  (∀ name, name ∈ result.fatsInCode ↔
    AliasClosure info.aliases info.fatsInCode name ∧
      ¬ AliasClosure info.aliases info.fatsInData name) ∧
  ∀ first second, Connected info.aliases first second →
    first ∈ result.vmtd → second ∈ result.vmtd

/--
A method that waits for a constructor: a defined class whose vtable is not taken
lists it.
-/
def WaitsForCtor (runtime : Runtime) (name : Name) : Prop :=
  ∃ codeModule ∈ runtime.modules, ∃ entry ∈ codeModule.vtable.entries,
    entry.1 ∉ runtime.vtabletaken ∧
      entry.1 ∈ (mergeMcfiMetainfo runtime.modules).definedCtors ∧
      name ∈ entry.2

/--
The metadata treats the names of an alias group alike: a name taken in code is
taken in data when an alias is, every alias of a name taken in code is taken in
code unless the group is taken in data, and aliases wait for constructors
together.
-/
structure AliasesUniform (runtime : Runtime) : Prop where
  data : ∀ first second,
    Connected (mergeMcfiMetainfo runtime.modules).aliases first second →
      first ∈ (mergeMcfiMetainfo runtime.modules).fatsInCode →
        second ∈ (mergeMcfiMetainfo runtime.modules).fatsInData →
          first ∈ (mergeMcfiMetainfo runtime.modules).fatsInData
  code : ∀ first second,
    Connected (mergeMcfiMetainfo runtime.modules).aliases first second →
      first ∈ (mergeMcfiMetainfo runtime.modules).fatsInCode →
        ¬ AliasClosure (mergeMcfiMetainfo runtime.modules).aliases
          (mergeMcfiMetainfo runtime.modules).fatsInData second →
          second ∈ (mergeMcfiMetainfo runtime.modules).fatsInCode
  methods : ∀ first second,
    Connected (mergeMcfiMetainfo runtime.modules).aliases first second →
      WaitsForCtor runtime first → WaitsForCtor runtime second

/-- The names `compute_fic` leaves. -/
theorem mem_directFatsInCode (info : Metainfo) (name : Name) :
    name ∈ directFatsInCode info ↔
      name ∈ info.fatsInCode ∧ name ∉ info.fatsInData := by
  simp [directFatsInCode, dictIn, dictFind, OrdDict.find_eq_none]

/-- The methods `get_all_vmtd` collects from one module. -/
theorem mem_getAllVmtd
    (vtabletaken definedCtors : KeySet Name)
    (vtable : OrdDict Name (List Name)) (name : Name) :
    name ∈ getAllVmtd vtabletaken definedCtors vtable ↔
      ∃ entry ∈ vtable.entries, entry.1 ∉ vtabletaken ∧
        entry.1 ∈ definedCtors ∧ name ∈ entry.2 := by
  have methods : ∀ (names : List Name) (vmtd : LinkMap Name Nat),
      name ∈ names.foldl
          (fun vmtd name => getAllVmtd.gAddVertexOf vmtd name) vmtd ↔
        name ∈ names ∨ name ∈ vmtd := by
    intro names
    induction names with
    | nil =>
        simp
    | cons head rest inductionHypothesis =>
        intro vmtd
        rw [List.foldl_cons, inductionHypothesis, getAllVmtd.gAddVertexOf,
          OrdDict.mem_insertNew, List.mem_cons]
        tauto
  have fold : ∀ (entries : List (Name × List Name)) (vmtd : LinkMap Name Nat),
      name ∈ entries.foldl (fun vmtd entry =>
          if !dictIn vtabletaken entry.1 && dictIn definedCtors entry.1 then
            entry.2.foldl
              (fun vmtd name => getAllVmtd.gAddVertexOf vmtd name) vmtd
          else vmtd) vmtd ↔
        (∃ entry ∈ entries, entry.1 ∉ vtabletaken ∧
          entry.1 ∈ definedCtors ∧ name ∈ entry.2) ∨ name ∈ vmtd := by
    intro entries
    induction entries with
    | nil =>
        simp
    | cons head rest inductionHypothesis =>
        intro vmtd
        have condition :
            (!dictIn vtabletaken head.1 && dictIn definedCtors head.1) = true ↔
              head.1 ∉ vtabletaken ∧ head.1 ∈ definedCtors := by
          simp [dictIn, dictFind, OrdDict.find_eq_none]
        rw [List.foldl_cons, inductionHypothesis, List.exists_mem_cons_iff]
        split
        next waits =>
          have facts := condition.mp waits
          rw [methods, or_left_comm, or_assoc]
          grind
        next other =>
          have fails := mt condition.mpr other
          grind
  have result := fold vtable.entries ∅
  simpa [getAllVmtd] using result

/-- The methods that wait for a constructor. -/
theorem mem_directVmtd (runtime : Runtime) (name : Name) :
    name ∈ directVmtd runtime ↔ WaitsForCtor runtime name := by
  have fold : ∀ (modules : List CodeModule) (vmtd : LinkMap Name Nat),
      name ∈ modules.foldl (fun vmtd codeModule =>
          mergeDicts vmtd (getAllVmtd runtime.vtabletaken
            (mergeMcfiMetainfo runtime.modules).definedCtors
            codeModule.vtable)) vmtd ↔
        name ∈ vmtd ∨ ∃ codeModule ∈ modules,
          ∃ entry ∈ codeModule.vtable.entries,
            entry.1 ∉ runtime.vtabletaken ∧
              entry.1 ∈ (mergeMcfiMetainfo runtime.modules).definedCtors ∧
              name ∈ entry.2 := by
    intro modules
    induction modules with
    | nil =>
        simp
    | cons head rest inductionHypothesis =>
        intro vmtd
        rw [List.foldl_cons, inductionHypothesis, mem_mergeDicts,
          mem_getAllVmtd, List.exists_mem_cons_iff, or_assoc]
  have result := fold runtime.modules ∅
  simpa [directVmtd, WaitsForCtor] using result

/--
The activation sets of a generation are closed under aliases exactly when the
metadata treats the names of each alias group alike.
-/
theorem activationClosed_iff
    {attrs : UInt8} {runtime result : Runtime}
    (generated : genCfg attrs runtime = .ok result) :
    ActivationClosed (mergeMcfiMetainfo runtime.modules) result ↔
      AliasesUniform runtime := by
  obtain ⟨cfg, cfgRuns, outcome⟩ := genCfg_result generated
  obtain ⟨facts⟩ := computeCfg_facts cfgRuns
  have inCode : ∀ name, name ∈ result.fatsInCode ↔
      name ∈ (mergeMcfiMetainfo runtime.modules).fatsInCode ∧
        name ∉ (mergeMcfiMetainfo runtime.modules).fatsInData := by
    intro name
    rw [outcome.fatsInCodeIs, fillTables,
      (mem_runStores_activation _ _ name).1, facts.fatsInCodeIs,
      mem_directFatsInCode]
  have inVmtd : ∀ name, name ∈ result.vmtd ↔ WaitsForCtor runtime name := by
    intro name
    rw [outcome.vmtdIs, fillTables, (mem_runStores_activation _ _ name).2,
      facts.vmtdIs, mem_directVmtd]
  have undirected := undirected_aliases runtime.modules
  unfold ActivationClosed
  simp only [inCode, inVmtd]
  constructor
  · rintro ⟨sets, methods⟩
    refine ⟨?_, ?_, methods⟩
    · intro first second connected firstCode secondData
      by_contra firstNotData
      have kept := (sets first).mp ⟨firstCode, firstNotData⟩
      exact kept.2 ⟨second, secondData, undirected.connected_symm connected⟩
    · intro first second connected firstCode noData
      exact ((sets second).mpr ⟨⟨first, firstCode, connected⟩, noData⟩).1
  · intro uniform
    refine ⟨fun name => ⟨?_, ?_⟩, uniform.methods⟩
    · rintro ⟨taken, notData⟩
      refine ⟨⟨name, taken, Relation.ReflTransGen.refl⟩, ?_⟩
      rintro ⟨member, memberData, connected⟩
      exact notData (uniform.data name member
        (undirected.connected_symm connected) taken memberData)
    · rintro ⟨⟨member, memberCode, connected⟩, noData⟩
      exact ⟨uniform.code member name connected memberCode noData,
        fun data => noData ⟨name, data, Relation.ReflTransGen.refl⟩⟩

namespace AliasExample

/-- A module that takes one name of an alias pair in code, and none in data. -/
def runtime : Runtime :=
  loadElf { allocCodeModule with
    aliases := gAddEdge ∅ (Name.ofPtr 16) (Name.ofPtr 32)
    aliasesUndirected := undirected_empty.join (Name.ofPtr 16) (Name.ofPtr 32)
    fatsInCode := (∅ : KeySet Name).insertNew (Name.ofPtr 16) ()
    instrumented := true } Runtime.boot

end AliasExample

/-- The alias of a function taken in code only is not among the inactive ones. -/
theorem activationClosed_fails :
    ∃ result, genCfg 0 AliasExample.runtime = .ok result ∧
      ¬ ActivationClosed (mergeMcfiMetainfo AliasExample.runtime.modules)
        result := by
  have computed :
      (genCfg 0 AliasExample.runtime).toOption.map
          (fun result => decide (Name.ofPtr 32 ∈ result.fatsInCode)) =
        some false := by
    decide +kernel
  cases generated : genCfg 0 AliasExample.runtime with
  | error fault =>
      simp [generated, Except.toOption] at computed
  | ok result =>
      have notInactive : Name.ofPtr 32 ∉ result.fatsInCode := by
        simpa [generated, Except.toOption] using computed
      refine ⟨result, rfl, fun closed => notInactive ?_⟩
      have linked : Linked
          (mergeMcfiMetainfo AliasExample.runtime.modules).aliases
            (Name.ofPtr 16) (Name.ofPtr 32) := by
        decide +kernel
      have taken : Name.ofPtr 16 ∈
          (mergeMcfiMetainfo AliasExample.runtime.modules).fatsInCode := by
        decide +kernel
      have noData :
          (mergeMcfiMetainfo AliasExample.runtime.modules).fatsInData = ∅ := by
        decide +kernel
      refine (closed.1 (Name.ofPtr 32)).mpr
        ⟨⟨_, taken, connected_of_linked linked⟩, ?_⟩
      rintro ⟨member, inData, _⟩
      rw [noData] at inData
      exact OrdDict.not_mem_empty member inData

/-- The criterion on the failing module. -/
theorem activationClosed_iff_alias :
    ∃ result, genCfg 0 AliasExample.runtime = .ok result ∧
      (ActivationClosed (mergeMcfiMetainfo AliasExample.runtime.modules)
          result ↔ AliasesUniform AliasExample.runtime) := by
  have returned :
      (genCfg 0 AliasExample.runtime).toOption.isSome = true := by
    decide +kernel
  cases generated : genCfg 0 AliasExample.runtime with
  | error fault =>
      simp [generated, Except.toOption] at returned
  | ok result =>
      exact ⟨result, rfl, activationClosed_iff generated⟩

end Mcfi
