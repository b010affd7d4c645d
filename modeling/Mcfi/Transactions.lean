import Mcfi.Lib.Interleaving
import Mcfi.PartialUpdate

namespace Mcfi

open LinkMap ByteMem

/-!
# Checks during an update

A check loads the word of its branch before the word of its target, and an update
writes all targets before the branches of the old modules.  So a branch that has
loaded its new id finds its target updated, words of different versions send it
back, and every decision agrees with one of the two CFGs.
-/

section Decisions

/-- The CFG has one id for a branch and a target, and its graphs agree. -/
structure Lets (cfg : CfgData) {modules : List CodeModule}
    (branch : Branch modules) (target : TarySymbol modules) : Prop where
  sameId : target.id cfg.tables = some (baryId cfg.tables branch.sym)
  allowed : FewComponents cfg → Allowed cfg branch target

/-- The CFG lets the branch go to the address. -/
def PermittedBy (cfg : CfgData) {modules : List CodeModule}
    (branch : Branch modules) (addr : Nat) : Prop :=
  NativeAt modules addr ∨
    ∃ target : TarySymbol modules, target.addr = addr ∧ Lets cfg branch target

/--
The address is inactive in the table of the CFG, or the id that the table has for
it is the id of a symbol that the CFG does not let the branch go to.
-/
def RefusedBy (cfg : CfgData) (table : ByteMem) {modules : List CodeModule}
    (branch : Branch modules) (addr : Nat) : Prop :=
  table.load64 addr % 2 = 0 ∨
    ∃ target : TarySymbol modules, target.addr = addr ∧
      target.id cfg.tables = some (table.load64 addr) ∧
      ¬ Allowed cfg branch target

end Decisions

/--
An indirect branch of a module that has been generated, whose slot belongs to
such modules only, with the address it is about to go to.
-/
structure CheckedBranch (modules : List CodeModule) where
  branch : Branch modules
  generated : ∀ other : Branch modules,
    other.sym.offset = branch.sym.offset → other.codeModule.cfggened = true
  addr : Nat
  high : x64AbiBase ≤ addr

section Transactions

variable {oldAttrs attrs : UInt8} {earlier before : Runtime}
  {old new : CfgData}

/-- The interleavings of one update with any number of checks. -/
def Transactions (new : CfgData) (before : Runtime) {Reader : Type}
    (checks : Reader → CheckedBranch before.modules) :
    Nat → (Reader → CheckState) → Prop :=
  Interleaved (partialTable new before)
    (tableUpdate new.tables before.modules).length
    (fun reader table =>
      CheckState.step table (checks reader).branch.sym.offset
        (checks reader).addr)
    (fun _ => .loadBid)

/-- What a check has loaded. -/
structure Loaded (old new : CfgData) (before : Runtime)
    (check : CheckedBranch before.modules) (bid tid : Nat) : Prop where
  bidIs : bid = baryId old.tables check.branch.sym ∨
    (bid = baryId new.tables check.branch.sym ∧
      tid = (fillTables new before).table.load64 check.addr)
  read : TaryRead new before check.addr tid

/-- What a check knows at each of its points, when the update is at another. -/
def Knows (old new : CfgData) (before : Runtime)
    (check : CheckedBranch before.modules) (done : Nat) : CheckState → Prop
  | .loadBid => True
  | .loadTid bid => bid = baryId old.tables check.branch.sym ∨
      (bid = baryId new.tables check.branch.sym ∧
        (taryPhase new.tables before.modules).length ≤ done)
  | .idCmp bid tid => Loaded old new before check bid tid
  | .interopCheck bid tid => Loaded old new before check bid tid ∧
      idCmp bid tid = interopCheck bid tid
  | .idValidityCheck bid tid => Loaded old new before check bid tid ∧
      idCmp bid tid = idValidityCheck bid tid
  | .idVersionCheck bid tid => Loaded old new before check bid tid ∧
      idCmp bid tid = idVersionCheck bid tid
  | .passed bid tid => Loaded old new before check bid tid ∧
      idCmp bid tid = .go
  | .reported bid tid => Loaded old new before check bid tid ∧
      idCmp bid tid = .report

/-- The update can only add to what a check knows. -/
theorem Knows.progress
    {check : CheckedBranch before.modules} {done : Nat} {state : CheckState}
    (knows : Knows old new before check done state) :
    Knows old new before check (done + 1) state := by
  cases state with
  | loadTid bid =>
      exact knows.imp_right fun ⟨bidIs, late⟩ => ⟨bidIs, by omega⟩
  | _ => exact knows

/-- Each instruction of a check preserves what it knows. -/
theorem Knows.step
    (settled : Settled old before) (facts : CfgFacts attrs before new)
    (notCompat : before.compatMode = false)
    {check : CheckedBranch before.modules} {done : Nat} {state : CheckState}
    (knows : Knows old new before check done state) :
    Knows old new before check done
      (state.step (partialTable new before done) check.branch.sym.offset
        check.addr) := by
  cases state with
  | loadBid =>
      have oldWord := settled.bary check.branch
        (check.generated check.branch rfl)
      simp only [CheckState.step, Knows]
      by_cases early : done ≤ (taryPhase new.tables before.modules).length
      · left
        rw [load64_slot_early settled.toTableLayout check.branch
          check.generated early, oldWord]
      · rcases load64_slot settled.toTableLayout facts check.branch done with
          isOld | isNew
        · exact Or.inl (isOld.trans oldWord)
        · exact Or.inr ⟨isNew, by omega⟩
  | loadTid bid =>
      refine ⟨knows.imp_right fun both => ⟨both.1, ?_⟩,
        taryRead settled.cleanTary facts notCompat check.high done⟩
      exact load64_addr_late settled.toTableLayout check.high both.2
  | idCmp bid tid =>
      have unfolded : idCmp bid tid =
          if bid = tid then .go else interopCheck bid tid := rfl
      simp only [CheckState.step]
      split
      next same => exact ⟨knows, by rw [unfolded, if_pos same]⟩
      next differ => exact ⟨knows, by rw [unfolded, if_neg differ]⟩
  | interopCheck bid tid =>
      obtain ⟨loaded, verdict⟩ := knows
      have unfolded : interopCheck bid tid =
          if tid % 256 = NPV then .go else idValidityCheck bid tid := rfl
      simp only [CheckState.step]
      split
      next native => exact ⟨loaded, by rw [verdict, unfolded, if_pos native]⟩
      next other => exact ⟨loaded, by rw [verdict, unfolded, if_neg other]⟩
  | idValidityCheck bid tid =>
      obtain ⟨loaded, verdict⟩ := knows
      have unfolded : idValidityCheck bid tid =
          if tid % 2 = 0 then .report else idVersionCheck bid tid := rfl
      simp only [CheckState.step]
      split
      next inactive =>
        exact ⟨loaded, by rw [verdict, unfolded, if_pos inactive]⟩
      next active =>
        exact ⟨loaded, by rw [verdict, unfolded, if_neg active]⟩
  | idVersionCheck bid tid =>
      obtain ⟨loaded, verdict⟩ := knows
      have unfolded : idVersionCheck bid tid =
          if bid % 2 ^ 32 ≠ tid % 2 ^ 32 then .retry else .report := rfl
      simp only [CheckState.step]
      split
      next => trivial
      next same => exact ⟨loaded, by rw [verdict, unfolded, if_neg same]⟩
  | passed bid tid => exact knows
  | reported bid tid => exact knows

/-- In every interleaving every check knows what its point says. -/
theorem Transactions.knows
    (settled : Settled old before) (facts : CfgFacts attrs before new)
    (notCompat : before.compatMode = false)
    {Reader : Type} {checks : Reader → CheckedBranch before.modules}
    {done : Nat} {states : Reader → CheckState}
    (reached : Transactions new before checks done states) (reader : Reader) :
    Knows old new before (checks reader) done (states reader) :=
  Interleaved.invariant
    (motive := fun done reader state =>
      Knows old new before (checks reader) done state)
    reached (fun _ => trivial) (fun _ knows => knows.progress)
    (fun _ knows => knows.step settled facts notCompat) reader

/-- The ids of two CFGs of different versions differ in their low halves. -/
private theorem low_differ
    {first second firstVersion secondVersion : Nat}
    (firstId : IsId (convertToMcfiHalfIdFormat firstVersion).1 first)
    (secondId : IsId (convertToMcfiHalfIdFormat secondVersion).1 second)
    (versions : (convertToMcfiHalfIdFormat firstVersion).1 ≠
      (convertToMcfiHalfIdFormat secondVersion).1) :
    first % 2 ^ 32 ≠ second % 2 ^ 32 := by
  rw [firstId.low, secondId.low]
  omega

variable (settled : Settled old before)
  (oldFacts : CfgFacts oldAttrs earlier old)
  (facts : CfgFacts attrs before new)
  (oldNotCompat : earlier.compatMode = false)
  (notCompat : before.compatMode = false)
  (versions : (convertToMcfiHalfIdFormat earlier.version).1 ≠
    (convertToMcfiHalfIdFormat before.version).1)
include settled oldFacts facts oldNotCompat notCompat versions

/-- A check that passes agrees with one of the two CFGs. -/
private theorem Loaded.permitted
    {check : CheckedBranch before.modules} {bid tid : Nat}
    (loaded : Loaded old new before check bid tid)
    (passes : idCmp bid tid = .go) :
    PermittedBy old check.branch check.addr ∨
      PermittedBy new check.branch check.addr := by
  have oldId := oldFacts.assignment.baryId_isId oldNotCompat check.branch.sym
  have newId := facts.assignment.baryId_isId notCompat check.branch.sym
  rcases idCmp_eq_go.mp passes with rfl | native
  · have odd : bid % 2 = 1 := by
      rcases loaded.bidIs with bidIs | ⟨bidIs, _⟩
      · rw [bidIs]
        exact oldId.odd
      · rw [bidIs]
        exact newId.odd
    rcases loaded.read.active odd with wordIs | ⟨target, addrIs, found⟩
    · rw [← wordIs] at odd
      obtain ⟨target, addrIs, found⟩ := settled.tary _ check.high odd
      rw [wordIs] at found
      have targetId := oldFacts.assignment.taryId_isId target.kind found
      rcases loaded.bidIs with bidIs | ⟨bidIs, _⟩
      · rw [bidIs] at found
        exact Or.inl (Or.inr ⟨target, addrIs, found, fun few =>
          (baryId_eq_iff_allowed oldFacts oldNotCompat few check.branch
            found).mp rfl⟩)
      · rw [← bidIs] at newId
        exact (low_differ targetId newId versions rfl).elim
    · have targetId := facts.assignment.taryId_isId target.kind found
      rcases loaded.bidIs with bidIs | ⟨bidIs, _⟩
      · rw [← bidIs] at oldId
        exact (low_differ oldId targetId versions rfl).elim
      · rw [bidIs] at found
        exact Or.inr (Or.inr ⟨target, addrIs, found, fun few =>
          (baryId_eq_iff_allowed facts notCompat few check.branch
            found).mp rfl⟩)
  · exact Or.inl (Or.inl (loaded.read.native native))

/-- A check that reports agrees with the CFG of the id it loaded. -/
private theorem Loaded.refused
    {check : CheckedBranch before.modules} {bid tid : Nat}
    (loaded : Loaded old new before check bid tid)
    (reports : idCmp bid tid = .report) :
    (bid = baryId old.tables check.branch.sym ∧
        RefusedBy old before.table check.branch check.addr) ∨
      (bid = baryId new.tables check.branch.sym ∧
        RefusedBy new (fillTables new before).table check.branch
          check.addr) := by
  have oldId := oldFacts.assignment.baryId_isId oldNotCompat check.branch.sym
  have newId := facts.assignment.baryId_isId notCompat check.branch.sym
  obtain ⟨differ, notNative, decision⟩ := idCmp_eq_report.mp reports
  have sameVersion : tid % 2 = 1 → bid % 2 ^ 32 = tid % 2 ^ 32 :=
    fun odd => decision.resolve_left (by omega)
  rcases loaded.bidIs with bidIs | ⟨bidIs, tidIs⟩
  · refine Or.inl ⟨bidIs, ?_⟩
    rcases Nat.mod_two_eq_zero_or_one tid with even | odd
    · exact Or.inl (loaded.read.inactive even notNative)
    · rcases loaded.read.active odd with wordIs | ⟨target, addrIs, found⟩
      · rw [← wordIs] at odd differ
        obtain ⟨target, addrIs, found⟩ := settled.tary _ check.high odd
        refine Or.inr ⟨target, addrIs, found, fun allowed => differ ?_⟩
        rw [bidIs]
        exact allowed.baryId_eq oldFacts found
      · have targetId := facts.assignment.taryId_isId target.kind found
        rw [← bidIs] at oldId
        exact (low_differ oldId targetId versions (sameVersion odd)).elim
  · refine Or.inr ⟨bidIs, ?_⟩
    rcases Nat.mod_two_eq_zero_or_one tid with even | odd
    · exact Or.inl (tidIs ▸ even)
    · rcases loaded.read.active odd with wordIs | ⟨target, addrIs, found⟩
      · have sameLow := sameVersion odd
        rw [← wordIs] at odd sameLow
        obtain ⟨target, addrIs, found⟩ := settled.tary _ check.high odd
        have targetId := oldFacts.assignment.taryId_isId target.kind found
        rw [← bidIs] at newId
        exact (low_differ targetId newId versions sameLow.symm).elim
      · rw [tidIs] at found differ
        refine Or.inr ⟨target, addrIs, found, fun allowed => differ ?_⟩
        rw [bidIs]
        exact allowed.baryId_eq facts found

end Transactions

/--
In every interleaving of an update with checks, a check that passes goes where the
old or the new CFG lets it go, and a check that reports is refused by the CFG of
the id that it loaded for its branch.
-/
theorem checks_linearise
    {oldAttrs attrs : UInt8} {earlier before after : Runtime}
    {old new : CfgData}
    (oldComputed : computeCfg oldAttrs earlier = .ok old)
    (computed : computeCfg attrs before = .ok new)
    (generated : genCfg attrs before = .ok after)
    (oldNotCompat : earlier.compatMode = false)
    (notCompat : before.compatMode = false)
    (versions : (convertToMcfiHalfIdFormat earlier.version).1 ≠
      (convertToMcfiHalfIdFormat before.version).1)
    (settled : Settled old before)
    {Reader : Type} {checks : Reader → CheckedBranch before.modules}
    {done : Nat} {states : Reader → CheckState}
    (reached : Transactions new before checks done states) (reader : Reader) :
    (∀ bid tid, states reader = .passed bid tid →
      PermittedBy old (checks reader).branch (checks reader).addr ∨
        PermittedBy new (checks reader).branch (checks reader).addr) ∧
    ∀ bid tid, states reader = .reported bid tid →
      (bid = baryId old.tables (checks reader).branch.sym ∧
        RefusedBy old before.table (checks reader).branch
          (checks reader).addr) ∨
      (bid = baryId new.tables (checks reader).branch.sym ∧
        RefusedBy new after.table (checks reader).branch
          (checks reader).addr) := by
  obtain ⟨oldFacts⟩ := computeCfg_facts oldComputed
  obtain ⟨facts⟩ := computeCfg_facts computed
  obtain ⟨other, otherRuns, outcome⟩ := genCfg_result generated
  rw [computed] at otherRuns
  cases otherRuns
  have tableIs : after.table = (fillTables new before).table := by
    rw [outcome.tableIs, compensated, if_pos settled.cfggened]
  have knows := reached.knows settled facts notCompat reader
  constructor
  · intro bid tid passed
    rw [passed] at knows
    exact knows.1.permitted settled oldFacts facts oldNotCompat notCompat
      versions knows.2
  · intro bid tid reported
    rw [reported] at knows
    rw [tableIs]
    exact knows.1.refused settled oldFacts facts oldNotCompat notCompat
      versions knows.2

namespace TransactionExample

open EnforcedExample

/-- The process after its first generation. -/
def first : Rt Runtime :=
  genCfg 0 apartRuntime

/-- And after its second. -/
def second : Rt Runtime := do
  genCfg 0 (← first)

/-- Before the first generation the tables are empty. -/
theorem cleanTary_apart : CleanTary apartRuntime := by
  have noNative : ∀ addr, ¬ NativeAt apartRuntime.modules addr := by
    rintro addr ⟨codeModule, loaded, isNative, _⟩
    rw [(module_of_mem loaded).1] at isNative
    cases isNative
  have zero : ∀ addr, apartRuntime.table.load64 addr = 0 :=
    fun addr => load64_zero addr
  exact {
    taryAligned := apartRuntime_separate.taryAligned
    notNative := fun target _ => noNative _
    high := fun codeModule loaded => by
      rw [(module_of_mem loaded).2.1]
      decide
    low := fun branch => by
      rcases List.mem_cons.mp (slot_of_branch branch) with slot | later
      · rw [slot]
        exact ⟨by decide, by decide⟩
      · rw [List.mem_singleton.mp later]
        exact ⟨by decide, by decide⟩
    slotNames := apartRuntime_separate.barySeparate
    offStart := fun addr _ _ => by rw [zero]
    native := fun addr _ marker => by
      rw [zero] at marker
      exact absurd marker (by decide) }

/-- The first generation settles the tables. -/
theorem settled_first
    {old : CfgData} {before : Runtime}
    (computed : computeCfg 0 apartRuntime = .ok old)
    (generated : first = .ok before) : Settled old before := by
  refine settled_genCfg computed generated rfl cleanTary_apart ?_ (Or.inr rfl)
  intro addr _ odd
  have zero : apartRuntime.table.load64 addr = 0 := load64_zero addr
  rw [zero] at odd
  cases odd

end TransactionExample

open TransactionExample EnforcedExample in
/--
A check of the function whose address is taken passes before the first store of
the second update.
-/
theorem checks_linearise_call :
    ∃ old before new, ∃ branch : Branch before.modules,
      first = .ok before ∧ computeCfg 0 apartRuntime = .ok old ∧
      computeCfg 0 before = .ok new ∧
      (PermittedBy old branch 0x400000 ∨ PermittedBy new branch 0x400000) := by
  have computed : second.toOption.isSome = true ∧
      first.toOption.map (fun before =>
        ((convertToMcfiHalfIdFormat apartRuntime.version).1 ==
          (convertToMcfiHalfIdFormat before.version).1,
          decide (before.table.load64 0x11000 =
            before.table.load64 0x400000))) = some (false, true) := by
    decide +kernel
  obtain ⟨returns, words⟩ := computed
  cases updated : second with
  | error fault =>
      simp [updated, Except.toOption] at returns
  | ok after =>
      unfold second at updated
      rw [bind_eq_ok] at updated
      obtain ⟨before, generated, updated⟩ := updated
      simp only [generated, Except.toOption, Option.map_some,
        Option.some.injEq, Prod.mk.injEq, beq_eq_false_iff_ne,
        decide_eq_true_eq] at words
      obtain ⟨versions, equal⟩ := words
      obtain ⟨old, oldComputed, outcome⟩ := genCfg_result generated
      obtain ⟨new, newComputed, _⟩ := genCfg_result updated
      have settled := settled_first oldComputed generated
      have loaded : ∀ codeModule ∈ before.modules,
          codeModule.cfggened = true := by
        intro codeModule listed
        rw [outcome.modulesAre] at listed
        obtain ⟨_, _, rfl⟩ := List.mem_map.mp listed
        rfl
      obtain ⟨codeModule, inList, sym, listed, symIs⟩ :
          ∃ codeModule ∈ before.modules, ∃ sym ∈ codeModule.icfsyms,
            sym.offset = 0x11000 := by
        rw [outcome.modulesAre]
        exact ⟨_, List.mem_map.mpr ⟨_, List.mem_singleton.mpr rfl, rfl⟩, _,
          List.mem_cons_self, rfl⟩
      let branch : Branch before.modules := ⟨codeModule, inList, sym, listed⟩
      let check : CheckedBranch before.modules :=
        ⟨branch, fun other _ => loaded _ other.loaded, 0x400000, by decide⟩
      have alone : ∀ {state : Unit → CheckState} {next : CheckState},
          next = (state ()).step before.table sym.offset 0x400000 →
          Transactions new before (fun _ => check) 0 state →
          Transactions new before (fun _ => check) 0 fun _ => next :=
        fun own reached => reached.read () own
          fun other differs => (differs rfl).elim
      have loads : Transactions new before (fun _ => check) 0 fun _ =>
          .idCmp (before.table.load64 sym.offset)
            (before.table.load64 0x400000) :=
        alone rfl (alone rfl .start)
      have passes : Transactions new before (fun _ => check) 0 fun _ =>
          .passed (before.table.load64 sym.offset)
            (before.table.load64 0x400000) :=
        alone (by rw [CheckState.step, if_pos (symIs.symm ▸ equal)]) loads
      exact ⟨old, before, new, branch, generated, oldComputed, newComputed,
        (checks_linearise oldComputed newComputed updated rfl
          (outcome.compatModeIs) versions settled passes ()).1 _ _ rfl⟩

end Mcfi
