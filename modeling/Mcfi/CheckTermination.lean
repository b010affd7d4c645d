import Mcfi.Check
import Mcfi.EnforcedCfg

namespace Mcfi

open LinkMap ByteMem

/-!
# Checks after a generation

A check ends when the words it reads are of one version.  After a generation two
kinds of words are not: in compatibility mode the id for branches without
targets is the bare marker, and an active word that the generation does not
rewrite keeps what it had.
-/

/-- The words of the table that are not Bary slots. -/
def TaryWord (modules : List CodeModule) (addr : Nat) : Prop :=
  addr % 8 = 0 ∧ ∀ branch : Branch modules, branch.sym.offset ≠ addr

/-- An address in a native module. -/
def InNative (modules : List CodeModule) (addr : Nat) : Prop :=
  ∃ native ∈ modules, native.instrumented = false ∧ native.Holds addr

/-- A symbol of an instrumented module that has an id lies at an address. -/
def HasTarget (cfg : CfgData) (modules : List CodeModule) (addr : Nat) : Prop :=
  ∃ target : TarySymbol modules, target.codeModule.instrumented = true ∧
    target.addr = addr ∧ ∃ id, target.id cfg.tables = some id

/-- One of the two graphs has the branch. -/
def HasNode (cfg : CfgData) {modules : List CodeModule}
    (branch : Branch modules) : Prop :=
  markIcj branch.sym.name ∈ cfg.callgraph ∨
    markRet branch.sym.name ∈ cfg.retgraph

/--
A generation leaves a word active: it catches up on its activation, or the word
is not native and was active or is activated by one of its symbols.
-/
def LeftActive (cfg : CfgData) (runtime : Runtime) (addr : Nat) : Prop :=
  CatchesUp runtime addr ∨
    (¬ InNative runtime.modules addr ∧
      (runtime.table.load64 addr % 2 = 1 ∨
        ∃ store ∈ tableUpdate cfg.tables runtime.modules, store.addr = addr ∧
          store.Activates ⟨runtime.table, cfg.fatsInCode, cfg.vmtd⟩))

/-- A word is rewritten with an id, or happens to have the new version. -/
def HasNewVersion (cfg : CfgData) (runtime : Runtime) (addr : Nat) : Prop :=
  HasTarget cfg runtime.modules addr ∨
    (¬ InNative runtime.modules addr ∧
      (runtime.table.load64 addr ||| 1) % 2 ^ 32 =
        (convertToMcfiHalfIdFormat runtime.version).1 + 1)

/--
Every branch that can meet an active target has an id with a version, and every
word that is left active has the new version.
-/
structure VersionsAgree (cfg : CfgData) (runtime : Runtime) : Prop where
  branches : ∀ (branch : Branch runtime.modules) (addr : Nat),
    TaryWord runtime.modules addr → LeftActive cfg runtime addr →
      runtime.compatMode = false ∨ HasNode cfg branch
  targets : ∀ (_ : Branch runtime.modules) (addr : Nat),
    TaryWord runtime.modules addr → LeftActive cfg runtime addr →
      HasNewVersion cfg runtime addr

section Words

variable {attrs : UInt8} {runtime : Runtime} {cfg : CfgData}
  (facts : CfgFacts attrs runtime cfg)
  (slots : SlotsApart runtime.modules) (native : NativeApart runtime.modules)

/-- The words of a half id's format are not those of the marker. -/
private theorem version_ne_marker (number : Nat) {low : Nat}
    (lowIs : low % 256 = NPV) :
    (convertToMcfiHalfIdFormat number).1 ≠ low := by
  intro same
  have notMarker := (convert_format number).fieldNotMarker 0 (by decide)
  rw [same, Nat.pow_zero, Nat.div_one, lowIs] at notMarker
  exact notMarker (by decide)

include facts

/-- The low half of a branch's id is the version exactly when it has one. -/
private theorem baryId_low (branch : Branch runtime.modules) :
    (baryId cfg.tables branch.sym % 2 ^ 32 =
        (convertToMcfiHalfIdFormat runtime.version).1 + 1 ∧
      (runtime.compatMode = false ∨ HasNode cfg branch)) ∨
    (baryId cfg.tables branch.sym = NPV ∧
      ¬ (runtime.compatMode = false ∨ HasNode cfg branch)) := by
  have callKeys := facts.assignment.callIds.memIff (markIcj branch.sym.name)
  have retKeys := facts.assignment.retIds.memIff (markRet branch.sym.name)
  unfold baryId dictFind HasNode
  cases callFound : cfg.tables.callids.find (markIcj branch.sym.name) with
  | some id =>
      exact Or.inl ⟨(facts.assignment.callid_isId callFound).low,
        Or.inr (Or.inl (callKeys.mp (OrdDict.mem_of_find callFound)))⟩
  | none =>
      cases retFound : cfg.tables.retids.find (markRet branch.sym.name) with
      | some id =>
          exact Or.inl ⟨(facts.assignment.retid_isId retFound).low,
            Or.inr (Or.inr (retKeys.mp (OrdDict.mem_of_find retFound)))⟩
      | none =>
          cases mode : runtime.compatMode with
          | false =>
              exact Or.inl ⟨(facts.assignment.idForOthers_isId mode).low,
                Or.inl rfl⟩
          | true =>
              refine Or.inr ⟨?_, ?_⟩
              · simp only [facts.assignment.othersAre, mode, if_true]
              · rw [← callKeys, ← retKeys]
                rintro (noMode | present | present)
                · cases noMode
                · exact OrdDict.find_eq_none.mp callFound present
                · exact OrdDict.find_eq_none.mp retFound present

include slots native

omit slots native in
/-- The stores at a word that is neither a slot nor native are of ids. -/
private theorem store_of_taryWord
    {addr : Nat} (tary : TaryWord runtime.modules addr)
    (notNative : ¬ InNative runtime.modules addr) {store : TableStore}
    (stored : store ∈ tableUpdate cfg.tables runtime.modules)
    (here : store.addr = addr) :
    (∀ other, store ≠ .native other) ∧
      IsId (convertToMcfiHalfIdFormat runtime.version).1 store.word ∧
      HasTarget cfg runtime.modules addr := by
  rcases tableUpdate_store stored with
    ⟨target, instrumented, targetAddr, found⟩ |
      ⟨codeModule, loaded, isNative, holds, _⟩ | ⟨branch, rfl⟩
  · refine ⟨?_, facts.assignment.taryId_isId target.kind found,
      target, instrumented, targetAddr.symm.trans here, _, found⟩
    rintro other rfl
    -- the marker is not an id, since its low byte is even
    have odd := (facts.assignment.taryId_isId target.kind found).odd
    have even : ¬ nativeWord % 2 = 1 := by decide
    exact (even odd).elim
  · exact (notNative ⟨codeModule, loaded, isNative, here ▸ holds⟩).elim
  · exact (tary.2 branch here).elim

/-- A filled word is active exactly when it is not native and left active. -/
theorem odd_filled
    {addr : Nat} (tary : TaryWord runtime.modules addr) :
    (fillTables cfg runtime).table.load64 addr % 2 = 1 ↔
      ¬ InNative runtime.modules addr ∧
        (runtime.table.load64 addr % 2 = 1 ∨
          ∃ store ∈ tableUpdate cfg.tables runtime.modules,
            store.addr = addr ∧
              store.Activates ⟨runtime.table, cfg.fatsInCode, cfg.vmtd⟩) := by
  by_cases inNative : InNative runtime.modules addr
  · obtain ⟨codeModule, loaded, isNative, holds⟩ := inNative
    have marker : (fillTables cfg runtime).table.load64 addr = nativeWord :=
      nativeWord_of_holds slots native loaded isNative holds tary.1 _
    rw [marker]
    exact iff_of_false (by decide)
      fun active => active.1 ⟨codeModule, loaded, isNative, holds⟩
  · rw [fillTables, odd_load64_runStores
      (fun store stored => tableUpdate_apart slots.toAlignedSymbols tary.1
        stored)
      (fun store stored here => by
        obtain ⟨notNative, isId, _⟩ :=
          store_of_taryWord facts tary inNative stored here
        exact ⟨notNative, isId.odd, isId.lt⟩)]
    exact ⟨fun active => ⟨inNative, active⟩, And.right⟩

/-- What a filled word is, up to its activation. -/
theorem filled_or_one
    {addr : Nat} (tary : TaryWord runtime.modules addr) :
    ((fillTables cfg runtime).table.load64 addr ||| 1) % 2 ^ 32 =
        (convertToMcfiHalfIdFormat runtime.version).1 + 1 ↔
      HasNewVersion cfg runtime addr := by
  by_cases inNative : InNative runtime.modules addr
  · obtain ⟨codeModule, loaded, isNative, holds⟩ := inNative
    have marker : (fillTables cfg runtime).table.load64 addr = nativeWord :=
      nativeWord_of_holds slots native loaded isNative holds tary.1 _
    rw [marker,
      show (nativeWord ||| 1) % 2 ^ 32 = 0xFCFCFCFC + 1 by decide]
    refine iff_of_false ?_ ?_
    · intro same
      exact version_ne_marker runtime.version
        (show 0xFCFCFCFC % 256 = NPV by decide) (by omega)
    · rintro (⟨target, instrumented, rfl, _⟩ | ⟨notNative, _⟩)
      · exact native.targets codeModule loaded isNative target instrumented
          holds
      · exact notNative ⟨codeModule, loaded, isNative, holds⟩
  · by_cases hasTarget : HasTarget cfg runtime.modules addr
    · refine iff_of_true ?_ (Or.inl hasTarget)
      obtain ⟨target, instrumented, rfl, id, found⟩ := hasTarget
      obtain ⟨other, otherId, _, otherFound, wordIs⟩ := taryWord_of_addr slots
        native (fun store => facts.fits) instrumented found
        ⟨runtime.table, cfg.fatsInCode, cfg.vmtd⟩
      have isId := facts.assignment.taryId_isId other.kind otherFound
      rcases wordIs with active | inactive
      · rw [fillTables, active, isId.or_one_eq, isId.low]
      · rw [fillTables, inactive, isId.deactivate_or_one, isId.low]
    · have kept : (fillTables cfg runtime).table.load64 addr =
          runtime.table.load64 addr := by
        refine load64_runStores_other
          (fun store stored => tableUpdate_apart slots.toAlignedSymbols
            tary.1 stored) ?_
        intro store stored here
        exact hasTarget
          (store_of_taryWord facts tary inNative stored here).2.2
      rw [kept]
      exact ⟨fun same => Or.inr ⟨inNative, same⟩, fun newVersion =>
        newVersion.elim (fun target => (hasTarget target).elim) And.right⟩

/-- Bit 0 of a word after a generation. -/
theorem active_generated_iff {result : Runtime}
    (outcome : GenCfgResult cfg runtime result) {addr : Nat}
    (tary : TaryWord runtime.modules addr) :
    result.table.load64 addr % 2 = 1 ↔ LeftActive cfg runtime addr := by
  rw [LeftActive, ← odd_filled facts slots native tary, outcome.tableIs]
  rcases load64_compensated cfg runtime tary.1 with ⟨caught, set⟩ | ⟨notCaught, kept⟩
  · rw [set, or_one]
    exact iff_of_true (by omega) (.inl caught)
  · rw [kept]
    exact ⟨Or.inr, fun left => left.resolve_left notCaught⟩

/-- The version of an active word after a generation. -/
theorem version_generated_iff {result : Runtime}
    (outcome : GenCfgResult cfg runtime result) {addr : Nat}
    (tary : TaryWord runtime.modules addr)
    (active : result.table.load64 addr % 2 = 1) :
    result.table.load64 addr % 2 ^ 32 =
        (convertToMcfiHalfIdFormat runtime.version).1 + 1 ↔
      HasNewVersion cfg runtime addr := by
  rw [← filled_or_one facts slots native tary]
  have same : result.table.load64 addr =
      (fillTables cfg runtime).table.load64 addr ||| 1 := by
    rw [outcome.tableIs] at active ⊢
    rcases load64_compensated cfg runtime tary.1 with ⟨_, set⟩ | ⟨_, kept⟩
    · exact set
    · rw [kept] at active ⊢
      rw [or_one]
      omega
  rw [same]

end Words

/--
After a generation every check ends, of any branch at any Tary word, exactly
when the versions agree: in compatibility mode no branch without a node meets an
active target, and no active word keeps another version.
-/
theorem checks_end_iff
    {attrs : UInt8} {runtime result : Runtime} {cfg : CfgData}
    (computed : computeCfg attrs runtime = .ok cfg)
    (generated : genCfg attrs runtime = .ok result)
    (slots : SlotsApart runtime.modules)
    (native : NativeApart runtime.modules)
    (catchesApart : ∀ branch : Branch runtime.modules,
      ¬ CatchesUp runtime branch.sym.offset) :
    (∀ (branch : Branch runtime.modules) (addr : Nat),
      TaryWord runtime.modules addr →
        ∃ verdict, CheckRun result.table branch.sym.offset addr verdict) ↔
      VersionsAgree cfg runtime := by
  obtain ⟨other, otherRuns, outcome⟩ := genCfg_result generated
  rw [computed] at otherRuns
  cases otherRuns
  obtain ⟨facts⟩ := computeCfg_facts computed
  have branchWord : ∀ branch : Branch runtime.modules,
      result.table.load64 branch.sym.offset =
        baryId cfg.tables branch.sym := by
    intro branch
    rw [outcome.tableIs]
    rcases load64_compensated cfg runtime (slots.baryAligned branch) with
      ⟨caught, _⟩ | ⟨_, kept⟩
    · exact (catchesApart branch caught).elim
    · rw [kept]
      exact baryWord slots native (fun store => facts.fits) branch _
  have retries : ∀ (branch : Branch runtime.modules) (addr : Nat),
      TaryWord runtime.modules addr →
        (idCmp (result.table.load64 branch.sym.offset)
            (result.table.load64 addr) = .retry ↔
          LeftActive cfg runtime addr ∧
            ¬ ((runtime.compatMode = false ∨ HasNode cfg branch) ∧
              HasNewVersion cfg runtime addr)) := by
    intro branch addr tary
    rw [idCmp_eq_retry, branchWord branch,
      ← active_generated_iff facts slots native outcome tary]
    apply and_congr_right
    intro isActive
    have version := version_generated_iff facts slots native outcome tary isActive
    rw [← version]
    rcases baryId_low facts branch with ⟨lowIs, hasId⟩ | ⟨isMarker, noId⟩
    · rw [lowIs]
      constructor
      · exact fun differ same => differ same.2.symm
      · exact fun differ same => differ ⟨hasId, same.symm⟩
    · refine iff_of_true ?_ fun both => noId both.1
      have lowOdd : result.table.load64 addr % 2 ^ 32 % 2 = 1 := by
        omega
      rw [isMarker]
      intro same
      rw [← same] at lowOdd
      exact absurd lowOdd (by decide)
  simp only [checkRun_iff]
  constructor
  · intro ends
    have both : ∀ (branch : Branch runtime.modules) (addr : Nat),
        TaryWord runtime.modules addr → LeftActive cfg runtime addr →
          (runtime.compatMode = false ∨ HasNode cfg branch) ∧
            HasNewVersion cfg runtime addr := by
      intro branch addr tary active
      by_contra disagree
      exact ends branch addr tary ((retries branch addr tary).mpr
        ⟨active, disagree⟩)
    exact ⟨fun branch addr tary active => (both branch addr tary active).1,
      fun branch addr tary active => (both branch addr tary active).2⟩
  · intro agree branch addr tary retry
    obtain ⟨active, disagree⟩ := (retries branch addr tary).mp retry
    exact disagree ⟨agree.branches branch addr tary active,
      agree.targets branch addr tary active⟩

namespace TerminationExample

open EnforcedExample

/-- A native library. -/
def nativeModule : CodeModule :=
  { allocCodeModule with
    baseAddr := 0x800000
    baseAligned := rfl
    sz := pageSize
    sizeAligned := Nat.mod_self pageSize }

/-- A process with a native library, and a branch that calls nothing. -/
def compatRuntime : Runtime :=
  loadElf (moduleAt 0x400000 programBase_aligned [] [⟨Name.ofPtr 80, 0⟩, ⟨Name.ofPtr 32, 0⟩])
    (loadElf nativeModule Runtime.boot)

/-- The branch that calls nothing. -/
def idleBranch : Branch compatRuntime.modules :=
  ⟨_, List.mem_cons_of_mem _ (List.mem_singleton.mpr rfl),
    ⟨Name.ofPtr 80, 0x11000⟩, List.mem_cons_self⟩

/-- The function whose address is taken. -/
def takenFunction : TarySymbol compatRuntime.modules :=
  ⟨_, List.mem_cons_of_mem _ (List.mem_singleton.mpr rfl), .function,
    ⟨Name.ofPtr 16, 0⟩, List.mem_singleton.mpr rfl⟩

end TerminationExample

open TerminationExample in
/--
With a native library loaded, a branch without targets checks the active id of a
function against the bare marker, and never ends.
-/
theorem check_never_ends :
    ∃ result, genCfg 0 compatRuntime = .ok result ∧
      result.table.load64 idleBranch.sym.offset = NPV ∧
      ¬ ∃ verdict, CheckRun result.table idleBranch.sym.offset
        takenFunction.addr verdict := by
  have computed : (genCfg 0 compatRuntime).toOption.map (fun result =>
      (result.table.load64 idleBranch.sym.offset,
        idCmp (result.table.load64 idleBranch.sym.offset)
          (result.table.load64 takenFunction.addr))) =
      some (NPV, .retry) := by
    decide +kernel
  cases generated : genCfg 0 compatRuntime with
  | error fault =>
      simp [generated, Except.toOption] at computed
  | ok result =>
      simp only [generated, Except.toOption, Option.map_some,
        Option.some.injEq, Prod.mk.injEq] at computed
      exact ⟨result, rfl, computed.1,
        fun ends => checkRun_iff.mp ends computed.2⟩

open EnforcedExample in
/-- The criterion on a small process without native code. -/
theorem checks_end_iff_call :
    ∃ cfg result, genCfg 0 apartRuntime = .ok result ∧
      ((∀ (branch : Branch apartRuntime.modules) (addr : Nat),
        TaryWord apartRuntime.modules addr →
          ∃ verdict, CheckRun result.table branch.sym.offset addr verdict) ↔
        VersionsAgree cfg apartRuntime) := by
  have returned : (genCfg 0 apartRuntime).toOption.isSome = true := by
    decide +kernel
  cases generated : genCfg 0 apartRuntime with
  | error fault =>
      simp [generated, Except.toOption] at returned
  | ok result =>
      obtain ⟨cfg, computed, _⟩ := genCfg_result generated
      refine ⟨cfg, result, rfl, checks_end_iff computed generated
        apartRuntime_separate.toSlotsApart
        (nativeApart_of_instrumented
          fun codeModule loaded => (module_of_mem loaded).1) ?_⟩
      rintro branch ⟨_, entry, inEmpty, _⟩
      exact OrdDict.not_mem_empty entry inEmpty

end Mcfi
