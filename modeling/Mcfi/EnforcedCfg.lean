import Mcfi.TableWords

namespace Mcfi

open LinkMap ByteMem

/-!
# The tables enforce the computed graphs

A branch may reach a target when the table words compare equal, and that is when
both lie in one component: of the call graph for a function, of the return graph
for a return address.  `gen_bary` looks a branch up among the call ids first, so
only a branch outside the call graph is checked as a return.
-/

/-- The computed graphs let a branch reach a target. -/
def Allowed (cfg : CfgData) {modules : List CodeModule}
    (branch : Branch modules) (target : TarySymbol modules) : Prop :=
  match target.kind with
  | .function =>
      SameComponent cfg.callgraph (markIcj branch.sym.name) target.node
  | .directReturn | .indirectReturn =>
      markIcj branch.sym.name ∉ cfg.callgraph ∧
        SameComponent cfg.retgraph (markRet branch.sym.name) target.node

/-- The tables let each branch reach exactly the targets that the graphs allow. -/
def Enforces (cfg : CfgData) (modules : List CodeModule) (table : ByteMem) :
    Prop :=
  ∀ (branch : Branch modules) (target : TarySymbol modules) (id : Nat),
    target.id cfg.tables = some id →
      (table.load64 branch.sym.offset = table.load64 target.addr ||| 1 ↔
        Allowed cfg branch target)

/-- Call ids, return ids and the id for others are pairwise different. -/
def IdsApart (tables : IdTables) : Prop :=
  (∀ callKey retKey callId retId,
    tables.callids.find callKey = some callId →
      tables.retids.find retKey = some retId → callId ≠ retId) ∧
  (∀ key id, tables.callids.find key = some id → id ≠ tables.idForOthers) ∧
  (∀ key id, tables.retids.find key = some id → id ≠ tables.idForOthers)

/-- The two graphs have fewer components than there are half ids. -/
def FewComponents (cfg : CfgData) : Prop :=
  ∀ lcg lrt, gGetLcc cfg.callgraph = .ok lcg → gGetLcc cfg.retgraph = .ok lrt →
    lcg.length + lrt.length < 125 ^ 4

section Comparison

variable {attrs : UInt8} {runtime : Runtime} {cfg : CfgData}
  (facts : CfgFacts attrs runtime cfg)
include facts

/-- The counts of an assignment are those of the component lists. -/
private theorem few_counts (few : FewComponents cfg) :
    facts.assignment.callCount + facts.assignment.retCount < 125 ^ 4 := by
  obtain ⟨lcg, lcgRuns, lcgLength⟩ := facts.assignment.callComponents
  obtain ⟨lrt, lrtRuns, lrtLength⟩ := facts.assignment.retComponents
  have bound := few lcg lrt lcgRuns lrtRuns
  omega

/-- A branch in the component of a function has its id. -/
private theorem baryId_of_callComponent
    (icfsym : Symbol) {node id : Nat}
    (found : cfg.tables.callids.find node = some id)
    (same : SameComponent cfg.callgraph (markIcj icfsym.name) node) :
    baryId cfg.tables icfsym = id := by
  obtain ⟨branchId, branchFound⟩ := OrdDict.exists_find_of_mem
    ((facts.assignment.callIds.memIff _).mpr same.1)
  have both := facts.assignment.callIds.sameOfComponent _ _ branchId same
    branchFound
  rw [found] at both
  cases both
  simp [baryId, dictFind, branchFound]

/-- A branch outside the call graph, in the component of a return address. -/
private theorem baryId_of_retComponent
    (icfsym : Symbol) {node id : Nat}
    (found : cfg.tables.retids.find node = some id)
    (outside : markIcj icfsym.name ∉ cfg.callgraph)
    (same : SameComponent cfg.retgraph (markRet icfsym.name) node) :
    baryId cfg.tables icfsym = id := by
  have noCallId : cfg.tables.callids.find (markIcj icfsym.name) = none :=
    OrdDict.find_eq_none.mpr fun inside =>
      outside ((facts.assignment.callIds.memIff _).mp inside)
  obtain ⟨branchId, branchFound⟩ := OrdDict.exists_find_of_mem
    ((facts.assignment.retIds.memIff _).mpr same.1)
  have both := facts.assignment.retIds.sameOfComponent _ _ branchId same
    branchFound
  rw [found] at both
  cases both
  simp [baryId, dictFind, noCallId, branchFound]

/-- What the graphs allow has the id of the branch. -/
theorem Allowed.baryId_eq
    {modules : List CodeModule} {branch : Branch modules}
    {target : TarySymbol modules} {id : Nat}
    (allowed : Allowed cfg branch target)
    (found : target.id cfg.tables = some id) :
    baryId cfg.tables branch.sym = id := by
  obtain ⟨codeModule, loaded, kind, sym, listed⟩ := target
  cases kind with
  | function => exact baryId_of_callComponent facts branch.sym found allowed
  | directReturn =>
      exact baryId_of_retComponent facts branch.sym found allowed.1 allowed.2
  | indirectReturn =>
      exact baryId_of_retComponent facts branch.sym found allowed.1 allowed.2

variable (notCompat : runtime.compatMode = false)
include notCompat

/-- The ids of different graphs are apart. -/
private theorem idsApart (few : FewComponents cfg) : IdsApart cfg.tables :=
  facts.assignment.ids_distinct notCompat
    (few_counts facts few)

/-- The id of a branch is the id of a function exactly in one component. -/
private theorem baryId_eq_callid
    (few : FewComponents cfg) (icfsym : Symbol) {node id : Nat}
    (found : cfg.tables.callids.find node = some id) :
    baryId cfg.tables icfsym = id ↔
      SameComponent cfg.callgraph (markIcj icfsym.name) node := by
  have few' := few_counts facts few
  obtain ⟨callRet, callOthers, _⟩ := idsApart facts notCompat few
  refine ⟨?_, baryId_of_callComponent facts icfsym found⟩
  unfold baryId dictFind
  intro equal
  cases branchFound : cfg.tables.callids.find (markIcj icfsym.name) with
  | some branchId =>
      rw [branchFound] at equal
      change branchId = id at equal
      subst equal
      exact facts.assignment.callIds.componentOfSame _ _ branchId notCompat
        (by omega) branchFound found
  | none =>
      rw [branchFound] at equal
      cases retFound : cfg.tables.retids.find (markRet icfsym.name) with
      | some retId =>
          rw [retFound] at equal
          exact (callRet _ _ _ _ found retFound equal.symm).elim
      | none =>
          rw [retFound] at equal
          exact (callOthers _ _ found equal.symm).elim

/--
The id of a branch is the id of a return address exactly when the branch is not
in the call graph and both lie in one component of the return graph.
-/
private theorem baryId_eq_retid
    (few : FewComponents cfg) (icfsym : Symbol) {node id : Nat}
    (found : cfg.tables.retids.find node = some id) :
    baryId cfg.tables icfsym = id ↔
      markIcj icfsym.name ∉ cfg.callgraph ∧
        SameComponent cfg.retgraph (markRet icfsym.name) node := by
  have few' := few_counts facts few
  obtain ⟨callRet, _, retOthers⟩ := idsApart facts notCompat few
  refine ⟨?_, fun allowed =>
    baryId_of_retComponent facts icfsym found allowed.1 allowed.2⟩
  unfold baryId dictFind
  intro equal
  cases branchFound : cfg.tables.callids.find (markIcj icfsym.name) with
  | some branchId =>
      rw [branchFound] at equal
      exact (callRet _ _ _ _ branchFound found equal).elim
  | none =>
      rw [branchFound] at equal
      have outside : markIcj icfsym.name ∉ cfg.callgraph := fun inside =>
        OrdDict.find_eq_none.mp branchFound
          ((facts.assignment.callIds.memIff _).mpr inside)
      cases retFound : cfg.tables.retids.find (markRet icfsym.name) with
      | some retId =>
          rw [retFound] at equal
          change retId = id at equal
          subst equal
          exact ⟨outside, facts.assignment.retIds.componentOfSame _ _ retId
            notCompat (by omega) retFound found⟩
      | none =>
          rw [retFound] at equal
          exact (retOthers _ _ found equal.symm).elim

/-- The id of a branch is the id of a target exactly when it is allowed. -/
theorem baryId_eq_iff_allowed
    (few : FewComponents cfg) {modules : List CodeModule}
    (branch : Branch modules) {target : TarySymbol modules} {id : Nat}
    (found : target.id cfg.tables = some id) :
    baryId cfg.tables branch.sym = id ↔ Allowed cfg branch target := by
  obtain ⟨codeModule, loaded, kind, sym, listed⟩ := target
  cases kind with
  | function => exact baryId_eq_callid facts notCompat few branch.sym found
  | directReturn => exact baryId_eq_retid facts notCompat few branch.sym found
  | indirectReturn => exact baryId_eq_retid facts notCompat few branch.sym found

end Comparison

/--
After `gen_cfg` a branch's word is a target's word with bit 0 set exactly when
the computed graphs allow it, and the ids of the two graphs and of the branches
without targets never coincide.
-/
theorem table_enforces_cfg
    {attrs : UInt8} {runtime result : Runtime} {cfg : CfgData}
    (computed : computeCfg attrs runtime = .ok cfg)
    (generated : genCfg attrs runtime = .ok result)
    (notCompat : runtime.compatMode = false)
    (instrumented : ∀ codeModule ∈ runtime.modules,
      codeModule.instrumented = true)
    (separate : SeparatePlaces runtime.modules)
    (few : FewComponents cfg) :
    Enforces cfg runtime.modules result.table ∧ IdsApart cfg.tables := by
  obtain ⟨other, otherRuns, outcome⟩ := genCfg_result generated
  rw [computed] at otherRuns
  cases otherRuns
  obtain ⟨facts⟩ := computeCfg_facts computed
  refine ⟨?_, idsApart facts notCompat few⟩
  intro branch target id found
  have native := nativeApart_of_instrumented instrumented
  have fits : ∀ store ∈ tableUpdate cfg.tables runtime.modules,
      store.word < 2 ^ 64 := fun store => facts.fits
  have branchIsId := facts.assignment.baryId_isId notCompat branch.sym
  have targetIsId := facts.assignment.taryId_isId target.kind found
  have branchWord : result.table.load64 branch.sym.offset =
      baryId cfg.tables branch.sym := by
    have filled := baryWord separate.toSlotsApart native fits branch
      ⟨runtime.table, cfg.fatsInCode, cfg.vmtd⟩
    rw [outcome.tableIs]
    rcases load64_compensated cfg runtime (separate.baryAligned branch) with
      ⟨_, set⟩ | ⟨_, kept⟩
    · rw [set, fillTables, filled, branchIsId.or_one_eq]
    · rw [kept]
      exact filled
  have targetWord : result.table.load64 target.addr ||| 1 = id := by
    have filled : (fillTables cfg runtime).table.load64 target.addr ||| 1 =
        id := by
      rcases taryWord separate native fits
        (instrumented _ target.loaded) found
        ⟨runtime.table, cfg.fatsInCode, cfg.vmtd⟩ with active | inactive
      · rw [fillTables, active, targetIsId.or_one_eq]
      · rw [fillTables, inactive, targetIsId.deactivate_or_one]
    rw [outcome.tableIs]
    rcases load64_compensated cfg runtime
        (separate.target_aligned target) with
      ⟨_, set⟩ | ⟨_, kept⟩
    · rw [set, filled, targetIsId.or_one_eq]
    · rw [kept, filled]
  rw [branchWord, targetWord]
  exact baryId_eq_iff_allowed facts notCompat few branch found

namespace EnforcedExample

/-- A function whose address is taken, of the type the branches call. -/
def callee : Function where
  name := Name.ofPtr 16
  className := none
  methodName := none
  type := some (Name.ofPtr 64)
  returns := [Name.ofPtr 48]
  dtails := []
  itails := []

/-- A module with that function, and an indirect branch that may call it. -/
def moduleAt (baseAddr : Nat) (aligned : baseAddr % pageSize = 0)
    (rad : List Symbol) (icfsyms : List Symbol) : CodeModule :=
  { allocCodeModule with
    baseAddr := baseAddr
    baseAligned := aligned
    sz := pageSize
    sizeAligned := Nat.mod_self pageSize
    icfs := [⟨Name.ofPtr 32, .normalCall (some (Name.ofPtr 64))⟩]
    functions := [callee]
    fatsInData := (∅ : KeySet Name).insertNew (Name.ofPtr 16) ()
    funcsyms := [⟨Name.ofPtr 16, 0⟩]
    rad := rad
    icfsyms := icfsyms
    instrumented := true }

/-- A direct call of the function that returns to another place. -/
def apartRuntime : Runtime :=
  loadElf (moduleAt 0x400000 programBase_aligned [⟨Name.ofPtr 16, 8⟩]
    [⟨Name.ofPtr 32, 0⟩, ⟨Name.ofPtr 48, 0⟩]) Runtime.boot

/-- A direct call of the function right before the function itself. -/
def sharedTaryRuntime : Runtime :=
  loadElf (moduleAt 0x400000 programBase_aligned [⟨Name.ofPtr 16, 0⟩]
    [⟨Name.ofPtr 32, 0⟩]) Runtime.boot

/-- A module at the first Bary slot, with a branch that calls nothing. -/
def sharedSlotRuntime : Runtime :=
  loadElf (moduleAt 0x11000 rfl [] [⟨Name.ofPtr 80, 0⟩, ⟨Name.ofPtr 32, 0⟩])
    Runtime.boot

end EnforcedExample

/--
Tary symbols of one address have one name, and Bary slots are distinct: a layout
that still lets a function and a return address, or a slot and a target, meet.
-/
structure NamesApart (modules : List CodeModule) : Prop where
  taryAligned : ∀ target : TarySymbol modules, target.sym.offset % 8 = 0
  baryAligned : ∀ branch : Branch modules, branch.sym.offset % 8 = 0
  taryNames : ∀ first second : TarySymbol modules,
    first.addr = second.addr → first.sym.name = second.sym.name
  slotsDistinct : ∀ first second : Branch modules,
    first.sym.offset = second.sym.offset → first.sym = second.sym

/-- Instrumented modules of that layout whose tables enforce something else. -/
def EnforcementFails (runtime : Runtime) : Prop :=
  ∃ cfg result, computeCfg 0 runtime = .ok cfg ∧
    genCfg 0 runtime = .ok result ∧ runtime.compatMode = false ∧
    (∀ codeModule ∈ runtime.modules, codeModule.instrumented = true) ∧
    NamesApart runtime.modules ∧ FewComponents cfg ∧
    ¬ Enforces cfg runtime.modules result.table

namespace EnforcedExample

/-- What the example runs have in common, given what they compute. -/
theorem enforcementFails_of
    {runtime : Runtime} (branch : Branch runtime.modules)
    (target : TarySymbol runtime.modules) (calls rets : Nat)
    (linked inGraph equal : Bool)
    (notCompat : runtime.compatMode = false)
    (instrumented : ∀ codeModule ∈ runtime.modules,
      codeModule.instrumented = true)
    (places : NamesApart runtime.modules)
    (computed : (computeCfg 0 runtime).toOption.map (fun cfg =>
        ((target.id cfg.tables).isSome,
          (gGetLcc cfg.callgraph).toOption.map List.length,
          (gGetLcc cfg.retgraph).toOption.map List.length,
          decide (Linked cfg.callgraph (markIcj branch.sym.name) target.node),
          decide (markIcj branch.sym.name ∈ cfg.callgraph))) =
      some (true, some calls, some rets, linked, inGraph))
    (generated : (genCfg 0 runtime).toOption.map (fun result =>
        decide (result.table.load64 branch.sym.offset =
          result.table.load64 target.addr ||| 1)) = some equal)
    (few : calls + rets < 125 ^ 4)
    (isFunction : target.kind = .function)
    (wrong : (linked = true ∧ equal = false) ∨
      (inGraph = false ∧ equal = true)) :
    EnforcementFails runtime := by
  cases cfgRuns : computeCfg 0 runtime with
  | error fault =>
      simp [cfgRuns, Except.toOption] at computed
  | ok cfg =>
      cases runs : genCfg 0 runtime with
      | error fault =>
          simp [runs, Except.toOption] at generated
      | ok result =>
          simp only [cfgRuns, Except.toOption, Option.map_some,
            Option.some.injEq, Prod.mk.injEq] at computed
          simp only [runs, Except.toOption, Option.map_some,
            Option.some.injEq] at generated
          obtain ⟨hasId, callCount, retCount, linkedIs, inGraphIs⟩ := computed
          refine ⟨cfg, result, cfgRuns, runs, notCompat, instrumented,
            places, ?_, ?_⟩
          · intro lcg lrt lcgRuns lrtRuns
            rw [lcgRuns] at callCount
            rw [lrtRuns] at retCount
            simp only [Option.map_some, Option.some.injEq]
              at callCount retCount
            omega
          · intro enforces
            obtain ⟨id, found⟩ := Option.isSome_iff_exists.mp hasId
            have criterion := enforces branch target id found
            rw [Allowed, isFunction] at criterion
            rcases wrong with ⟨isLinked, notEqual⟩ | ⟨notInGraph, isEqual⟩
            · subst isLinked notEqual
              have path := of_decide_eq_true linkedIs
              exact of_decide_eq_false generated
                (criterion.mpr ⟨mem_of_linked path, connected_of_linked path⟩)
            · subst notInGraph isEqual
              exact of_decide_eq_false inGraphIs
                (criterion.mp (of_decide_eq_true generated)).1

/-- The modules of the examples. -/
theorem module_of_mem
    {baseAddr : Nat} {aligned : baseAddr % pageSize = 0}
    {rad icfsyms : List Symbol}
    {codeModule : CodeModule}
    (loaded : codeModule ∈
      (loadElf (moduleAt baseAddr aligned rad icfsyms) Runtime.boot).modules) :
    codeModule.instrumented = true ∧ codeModule.baseAddr = baseAddr ∧
      codeModule.funcsyms = [⟨Name.ofPtr 16, 0⟩] ∧ codeModule.rad = rad ∧
      codeModule.rai = [] ∧
      codeModule.icfsyms = assignBidSlots bidSlotStart icfsyms := by
  rw [show codeModule = _ from List.mem_singleton.mp loaded]
  exact ⟨rfl, rfl, rfl, rfl, rfl, rfl⟩

/-- The Tary symbols of the examples. -/
theorem symbol_of_target
    {baseAddr : Nat} {aligned : baseAddr % pageSize = 0}
    {rad icfsyms : List Symbol}
    (target : TarySymbol
      (loadElf (moduleAt baseAddr aligned rad icfsyms)
        Runtime.boot).modules) :
    target.codeModule.baseAddr = baseAddr ∧
      ((target.kind = .function ∧ target.sym = ⟨Name.ofPtr 16, 0⟩) ∨
        (target.kind = .directReturn ∧ target.sym ∈ rad)) := by
  obtain ⟨codeModule, loaded, kind, sym, listed⟩ := target
  obtain ⟨_, baseIs, funcsymsAre, radAre, raiAre, _⟩ := module_of_mem loaded
  refine ⟨baseIs, ?_⟩
  cases kind with
  | function =>
      rw [TaryKind.symbols, funcsymsAre, List.mem_singleton] at listed
      exact Or.inl ⟨rfl, listed⟩
  | directReturn =>
      rw [TaryKind.symbols, radAre] at listed
      exact Or.inr ⟨rfl, listed⟩
  | indirectReturn =>
      rw [TaryKind.symbols, raiAre] at listed
      exact (List.not_mem_nil listed).elim

/-- The branches of the examples. -/
theorem slot_of_branch
    {baseAddr : Nat} {aligned : baseAddr % pageSize = 0}
    {rad icfsyms : List Symbol}
    (branch : Branch
      (loadElf (moduleAt baseAddr aligned rad icfsyms)
        Runtime.boot).modules) :
    branch.sym ∈ assignBidSlots bidSlotStart icfsyms := by
  obtain ⟨codeModule, loaded, sym, listed⟩ := branch
  obtain ⟨_, _, _, _, _, icfsymsAre⟩ := module_of_mem loaded
  rw [icfsymsAre] at listed
  exact listed

/-- The symbols of the first example have places of their own. -/
theorem apartRuntime_separate : SeparatePlaces apartRuntime.modules := by
  have symbolIs : ∀ target : TarySymbol apartRuntime.modules,
      target.codeModule.baseAddr = 0x400000 ∧
        (target.kind = .function ∧ target.sym = ⟨Name.ofPtr 16, 0⟩ ∨
          target.kind = .directReturn ∧
            target.sym = ⟨Name.ofPtr 16, 8⟩) := by
    intro target
    obtain ⟨baseIs, isFunction | ⟨kindIs, listed⟩⟩ :=
      symbol_of_target target
    · exact ⟨baseIs, Or.inl isFunction⟩
    · exact ⟨baseIs, Or.inr ⟨kindIs, List.mem_singleton.mp listed⟩⟩
  have slotIs : ∀ branch : Branch apartRuntime.modules,
      branch.sym = ⟨Name.ofPtr 32, 0x11000⟩ ∨
        branch.sym = ⟨Name.ofPtr 48, 0x11008⟩ := by
    intro branch
    rcases List.mem_cons.mp (slot_of_branch branch) with first | later
    · exact Or.inl first
    · exact Or.inr (List.mem_singleton.mp later)
  exact {
    taryAligned := fun target => by
      rcases (symbolIs target).2 with ⟨_, symIs⟩ | ⟨_, symIs⟩ <;>
        simp [symIs]
    baryAligned := fun branch => by
      rcases slotIs branch with symIs | symIs <;> simp [symIs]
    tarySeparate := fun first second same => by
      obtain ⟨firstBase, ⟨firstKind, firstSym⟩ |
        ⟨firstKind, firstSym⟩⟩ := symbolIs first <;>
      obtain ⟨secondBase, ⟨secondKind, secondSym⟩ |
        ⟨secondKind, secondSym⟩⟩ := symbolIs second <;>
      simp_all [TarySymbol.addr, TarySymbol.node]
    barySeparate := fun first second same => by
      rcases slotIs first with firstIs | firstIs <;>
        rcases slotIs second with secondIs | secondIs <;>
        rw [firstIs, secondIs] at same ⊢ <;> simp at same
    apart := fun branch target => by
      obtain ⟨baseIs, ⟨_, symIs⟩ | ⟨_, symIs⟩⟩ := symbolIs target <;>
        rcases slotIs branch with slot | slot <;>
        simp [TarySymbol.addr, baseIs, symIs, slot] }

end EnforcedExample

open EnforcedExample in
/--
Two ways in which that layout is not enough: a function and a return address of
one name at one address, where the return id stays, and a Bary slot at the
address of a function, where the branch's own id stays.
-/
theorem enforcement_fails_at_shared_places :
    EnforcementFails sharedTaryRuntime ∧
      EnforcementFails sharedSlotRuntime := by
  constructor
  · refine enforcementFails_of
      ⟨_, List.mem_singleton.mpr rfl, ⟨Name.ofPtr 32, 0x11000⟩,
        List.mem_singleton.mpr rfl⟩
      ⟨_, List.mem_singleton.mpr rfl, .function, ⟨Name.ofPtr 16, 0⟩,
        List.mem_singleton.mpr rfl⟩
      1 1 true true false
      rfl (fun codeModule loaded => (module_of_mem loaded).1) ?_
      (by decide +kernel) (by decide +kernel) (by decide) rfl
      (Or.inl ⟨rfl, rfl⟩)
    have symbolIs : ∀ target : TarySymbol sharedTaryRuntime.modules,
        target.sym = ⟨Name.ofPtr 16, 0⟩ := by
      intro target
      rcases (symbol_of_target target).2 with ⟨_, symIs⟩ | ⟨_, listed⟩
      · exact symIs
      · exact List.mem_singleton.mp listed
    have slotIs : ∀ branch : Branch sharedTaryRuntime.modules,
        branch.sym = ⟨Name.ofPtr 32, 0x11000⟩ :=
      fun branch => List.mem_singleton.mp (slot_of_branch branch)
    exact {
      taryAligned := fun target => by simp [symbolIs target]
      baryAligned := fun branch => by simp [slotIs branch]
      taryNames := fun first second _ => by rw [symbolIs first, symbolIs second]
      slotsDistinct := fun first second _ => by rw [slotIs first, slotIs second] }
  · refine enforcementFails_of
      ⟨_, List.mem_singleton.mpr rfl, ⟨Name.ofPtr 80, 0x11000⟩,
        List.mem_cons_self⟩
      ⟨_, List.mem_singleton.mpr rfl, .function, ⟨Name.ofPtr 16, 0⟩,
        List.mem_singleton.mpr rfl⟩
      1 1 false false true
      rfl (fun codeModule loaded => (module_of_mem loaded).1) ?_
      (by decide +kernel) (by decide +kernel) (by decide) rfl
      (Or.inr ⟨rfl, rfl⟩)
    have symbolIs : ∀ target : TarySymbol sharedSlotRuntime.modules,
        target.sym = ⟨Name.ofPtr 16, 0⟩ := by
      intro target
      rcases (symbol_of_target target).2 with ⟨_, symIs⟩ | ⟨_, listed⟩
      · exact symIs
      · exact (List.not_mem_nil listed).elim
    have slotIs : ∀ branch : Branch sharedSlotRuntime.modules,
        branch.sym = ⟨Name.ofPtr 80, 0x11000⟩ ∨
          branch.sym = ⟨Name.ofPtr 32, 0x11008⟩ := by
      intro branch
      rcases List.mem_cons.mp (slot_of_branch branch) with first | later
      · exact Or.inl first
      · exact Or.inr (List.mem_singleton.mp later)
    exact {
      taryAligned := fun target => by simp [symbolIs target]
      baryAligned := fun branch => by
        rcases slotIs branch with symIs | symIs <;> simp [symIs]
      taryNames := fun first second _ => by rw [symbolIs first, symbolIs second]
      slotsDistinct := fun first second same => by
        rcases slotIs first with firstIs | firstIs <;>
          rcases slotIs second with secondIs | secondIs <;>
          rw [firstIs, secondIs] at same ⊢ <;> simp at same }

open EnforcedExample in
/-- The tables of a small process enforce its graphs. -/
theorem table_enforces_cfg_call :
    ∃ cfg result, computeCfg 0 apartRuntime = .ok cfg ∧
      genCfg 0 apartRuntime = .ok result ∧
      Enforces cfg apartRuntime.modules result.table ∧
        IdsApart cfg.tables := by
  have counted : (computeCfg 0 apartRuntime).toOption.map (fun cfg =>
      ((gGetLcc cfg.callgraph).toOption.map List.length,
        (gGetLcc cfg.retgraph).toOption.map List.length)) =
      some (some 1, some 1) := by
    decide +kernel
  have returned : (genCfg 0 apartRuntime).toOption.isSome = true := by
    decide +kernel
  cases computed : computeCfg 0 apartRuntime with
  | error fault =>
      simp [computed, Except.toOption] at counted
  | ok cfg =>
      cases generated : genCfg 0 apartRuntime with
      | error fault =>
          simp [generated, Except.toOption] at returned
      | ok result =>
          simp only [computed, Except.toOption, Option.map_some,
            Option.some.injEq, Prod.mk.injEq] at counted
          refine ⟨cfg, result, rfl, rfl, table_enforces_cfg computed generated
            rfl (fun codeModule loaded => (module_of_mem loaded).1)
            apartRuntime_separate ?_⟩
          intro lcg lrt lcgRuns lrtRuns
          rw [lcgRuns, lrtRuns] at counted
          simp only [Option.map_some, Option.some.injEq] at counted
          omega

end Mcfi
