import Mcfi.CfgGrowth
import Mcfi.CheckTermination
import Mcfi.Markers
import Mcfi.Transactions

namespace Mcfi

open LinkMap ByteMem

/-!
# Every indirect branch is mediated

What the tables let an indirect branch do, over whole runs: modules are loaded,
the CFG is generated any number of times, and between two generations calls out of
the patch stubs activate targets.  The state keeps one fact about each word of the
tables, which every call of such a run preserves.  From it follows, for every
branch and every address, exactly when the check before the branch passes.
-/

section Words

variable {table : ByteMem} {query : Nat}

/-- Setting a set bit again changes nothing. -/
private theorem or_one_twice (word : Nat) : word ||| 1 ||| 1 = word ||| 1 := by
  rw [Nat.or_assoc]
  rfl

/-- Setting bit 0 of an odd word changes nothing. -/
theorem or_one_of_odd {word : Nat} (odd : word % 2 = 1) : word ||| 1 = word := by
  rw [or_one]
  omega

/-- Activating an aligned word sets its bit 0, and changes no other aligned word. -/
private theorem load64_activate (table : ByteMem)
    {site : Nat} (aligned : site % 8 = 0) (queryAligned : query % 8 = 0) :
    (activate table site).load64 query =
      if query = site then table.load64 query ||| 1 else table.load64 query := by
  unfold activate
  by_cases here : query = site
  · subst here
    rw [if_pos rfl]
    split
    next => exact load64_setBit0 table query
    next odd => exact (or_one_of_odd (Nat.mod_two_ne_zero.mp odd)).symm
  · rw [if_neg here]
    split
    next => exact load64_setBit0_other table aligned queryAligned here
    next => rfl

/-- Activating aligned words, word by word. -/
theorem load64_activations (table : ByteMem)
    {sites : List Nat} (aligned : ∀ site ∈ sites, site % 8 = 0)
    (queryAligned : query % 8 = 0) :
    (query ∈ sites ∧
        (sites.foldl activate table).load64 query = table.load64 query ||| 1) ∨
      (query ∉ sites ∧
        (sites.foldl activate table).load64 query = table.load64 query) := by
  induction sites generalizing table with
  | nil => exact Or.inr ⟨List.not_mem_nil, rfl⟩
  | cons site rest inductionHypothesis =>
      have first := load64_activate table (aligned site (by simp))
        queryAligned
      rw [List.foldl_cons]
      rcases inductionHypothesis (activate table site)
          (fun later listed => aligned later (List.mem_cons_of_mem _ listed)) with
        ⟨inRest, set⟩ | ⟨notInRest, kept⟩
      · refine Or.inl ⟨List.mem_cons_of_mem _ inRest, ?_⟩
        rw [set, first]
        split
        next => exact or_one_twice _
        next => rfl
      · rw [kept, first]
        by_cases here : query = site
        · rw [if_pos here]
          exact Or.inl ⟨List.mem_cons.mpr (Or.inl here), rfl⟩
        · rw [if_neg here]
          exact Or.inr ⟨List.not_mem_cons_of_ne_of_not_mem here notInRest, rfl⟩

/-- A landing pad at an address lies outside a word. -/
def PadOutside (addr pad : Nat) : Prop :=
  pad < addr ∨ addr + 8 ≤ pad

/-- Landing pads outside a word leave it. -/
theorem load64_pads (table : ByteMem)
    {pads : List Nat} (outside : ∀ pad ∈ pads, PadOutside query pad) :
    (pads.foldl (fun table pad => table.storeByte pad (UInt8.ofNat LPV))
      table).load64 query = table.load64 query := by
  induction pads generalizing table with
  | nil => rfl
  | cons pad rest inductionHypothesis =>
      rw [List.foldl_cons, inductionHypothesis _
        fun later listed => outside later (List.mem_cons_of_mem _ listed)]
      apply load_congr_offset
      intro offset below
      have apart := outside pad (by simp)
      have different : query + offset ≠ pad := by
        unfold PadOutside at apart
        omega
      simp [storeByte, different]

end Words

section Calls

/-- What a call activates: the targets that its patch point stands for. -/
def Call.Activates (before : Runtime) (addr : Nat) : Call → Prop
  | .patchAt patchpoint => ∃ codeModule name,
      findModule before.modules patchpoint = some codeModule ∧
      codeModule.atFunc.find (patchpoint - codeModule.baseAddr) = some name ∧
      addr ∈ before.fatsInCode.targets name
  | .patchEntry patchpoint => ∃ codeModule,
      findModule before.modules patchpoint = some codeModule ∧
      addr ∈ ctorSites before codeModule (patchpoint - codeModule.baseAddr)
  | .patchCall patchpoint =>
      before.cfggened = true ∧ patchpoint ∉ before.patchedRa ∧
        (roundUp8 patchpoint).addr = addr
  | _ => False

/-- The calls between two generations that do not store into code heaps. -/
def Call.BetweenGenerations : Call → Prop
  | .load _ => True
  | .patchAt _ => True
  | .patchEntry _ => True
  | .patchCall _ => True
  | _ => False

/-- No landing pad that a call marks lies inside a word. -/
def Call.MarksOutside (before : Runtime) (addr : Nat) : Call → Prop
  | .patchEntry patchpoint => ∀ codeModule,
      findModule before.modules patchpoint = some codeModule →
        ∀ key ∈ codeModule.flp.targets (patchpoint - codeModule.baseAddr),
          PadOutside addr (codeModule.baseAddr + key)
  | _ => True

variable {call : Call} {before after : Runtime} {addr : Nat}

/--
A call between two generations changes an aligned word, away from landing pads, by
setting its bit 0 when it activates the word, and not at all otherwise.
-/
theorem Call.word_changes
    (between : call.BetweenGenerations) (returned : call.run before = .ok after)
    (codeSites : SitesIn (· % 8 = 0) before.fatsInCode)
    (methodSites : SitesIn (· % 8 = 0) before.vmtd)
    (aligned : addr % 8 = 0) (outside : call.MarksOutside before addr) :
    (call.Activates before addr ∧
        after.table.load64 addr = before.table.load64 addr ||| 1) ∨
      (¬ call.Activates before addr ∧
        after.table.load64 addr = before.table.load64 addr) := by
  cases call with
  | load parsed =>
      cases returned
      exact Or.inr ⟨id, rfl⟩
  | patchAt patchpoint =>
      obtain ⟨codeModule, name, located, _, named, _, rfl⟩ := patchAt_ok returned
      rcases load64_activations before.table
          (fun site listed => codeSites name site (mem_targets.mp listed)) aligned with
        ⟨inside, set⟩ | ⟨notInside, kept⟩
      · exact Or.inl ⟨⟨codeModule, name, located, named, inside⟩, set⟩
      · refine Or.inr ⟨?_, kept⟩
        rintro ⟨other, otherName, otherLocated, otherNamed, inside⟩
        cases located.symm.trans otherLocated
        cases named.symm.trans otherNamed
        exact notInside inside
  | patchEntry patchpoint =>
      obtain ⟨codeModule, original, located, _, _, _, rfl⟩ := patchEntry_ok returned
      have pads : ∀ pad ∈ (codeModule.flp.targets
          (patchpoint - codeModule.baseAddr)).map (codeModule.baseAddr + ·),
          PadOutside addr pad := by
        intro pad listed
        obtain ⟨key, isKey, rfl⟩ := List.mem_map.mp listed
        exact outside codeModule located key isKey
      have unmarked := load64_pads ((ctorSites before codeModule
        (patchpoint - codeModule.baseAddr)).foldl activate before.table) pads
      rw [List.foldl_map] at unmarked
      rw [unmarked]
      have recorded : ∀ site ∈ ctorSites before codeModule
          (patchpoint - codeModule.baseAddr), site % 8 = 0 := by
        intro site listed
        obtain ⟨name, linked⟩ := mem_ctorSites listed
        exact methodSites name site linked
      rcases load64_activations before.table recorded aligned with
        ⟨inside, set⟩ | ⟨notInside, kept⟩
      · exact Or.inl ⟨⟨codeModule, located, inside⟩, set⟩
      · refine Or.inr ⟨?_, kept⟩
        rintro ⟨other, otherLocated, inside⟩
        cases located.symm.trans otherLocated
        exact notInside inside
  | patchCall patchpoint =>
      obtain ⟨codeModule, _, ⟨repeated, rfl⟩ | ⟨_, fresh, _, _, rfl⟩⟩ :=
        patchCall_ok returned
      · refine Or.inr ⟨?_, rfl⟩
        rintro ⟨_, fresh, _⟩
        exact fresh repeated
      · cases generated : before.cfggened with
        | false =>
            refine Or.inr ⟨?_, by simp⟩
            rintro ⟨isGenerated, _⟩
            rw [generated] at isGenerated
            cases isGenerated
        | true =>
            simp only [if_true]
            by_cases here : (roundUp8 patchpoint).addr = addr
            · subst here
              exact Or.inl ⟨⟨generated, fresh, rfl⟩, load64_setBit0 _ _⟩
            · refine Or.inr ⟨fun activates => here activates.2.2, ?_⟩
              exact load64_setBit0_other _ (roundUp8 patchpoint).aligned aligned
                (Ne.symm here)
  | generate attrs => exact between.elim
  | takeAddress attrs funcAddr => exact between.elim
  | createHeap ph page size verifier => exact between.elim
  | fill bufferAddr handle dst src extra => exact between.elim
  | register handle metadata => exact between.elim

/-- Landing pads activate nothing. -/
private theorem active_of_pads
    {pads : List Nat} {table : ByteMem}
    (active : Active (pads.foldl
      (fun table pad => table.storeByte pad (UInt8.ofNat LPV)) table) addr) :
    Active table addr := by
  induction pads generalizing table with
  | nil => exact active
  | cons pad rest inductionHypothesis =>
      have first := inductionHypothesis active
      rw [active_iff] at first ⊢
      by_cases here : addr = pad
      · subst here
        simp only [storeByte, if_true] at first
        exact absurd first (by decide)
      · simpa [storeByte, here] using first

/-- What is active after a call between two generations was, or was activated. -/
theorem Call.active_of_after
    (between : call.BetweenGenerations) (returned : call.run before = .ok after)
    (codeSites : SitesIn (· % 8 = 0) before.fatsInCode)
    (methodSites : SitesIn (· % 8 = 0) before.vmtd)
    (aligned : addr % 8 = 0) (active : Active after.table addr) :
    Active before.table addr ∨ call.Activates before addr := by
  have changed := fun outside => Call.word_changes between returned codeSites
    methodSites aligned outside
  have settled : call.MarksOutside before addr →
      Active before.table addr ∨ call.Activates before addr := by
    intro outside
    rcases changed outside with ⟨activates, _⟩ | ⟨_, kept⟩
    · exact Or.inr activates
    · rw [Active, kept] at active
      exact Or.inl active
  cases call with
  | patchEntry patchpoint =>
      obtain ⟨codeModule, original, located, _, _, _, rfl⟩ := patchEntry_ok returned
      rw [← List.foldl_map (f := (codeModule.baseAddr + ·))
        (g := fun table pad => storeByte table pad (UInt8.ofNat LPV))] at active
      have unmarked := active_of_pads active
      have recorded : ∀ site ∈ ctorSites before codeModule
          (patchpoint - codeModule.baseAddr), site % 8 = 0 := by
        intro site listed
        obtain ⟨name, linked⟩ := mem_ctorSites listed
        exact methodSites name site linked
      rcases load64_activations before.table recorded aligned with
        ⟨inside, _⟩ | ⟨_, kept⟩
      · exact Or.inr ⟨codeModule, located, inside⟩
      · rw [Active, kept] at unmarked
        exact Or.inl unmarked
  | _ => exact settled trivial

end Calls

section Runs

/--
A generation that the branches can rely on: outside compatibility mode, on
instrumented modules whose places are apart, with few components, and every word
that is active already, or waits to be, is a target with an id.
-/
structure Generation.Relied (generation : Generation) : Prop where
  notCompat : generation.before.compatMode = false
  instrumented : ∀ codeModule ∈ generation.before.modules,
    codeModule.instrumented = true
  separate : SeparatePlaces generation.before.modules
  high : ∀ codeModule ∈ generation.before.modules,
    x64AbiBase ≤ codeModule.baseAddr
  low : ∀ branch : Branch generation.before.modules,
    branch.sym.offset + 8 ≤ x64AbiBase
  few : FewComponents generation.cfg
  rewrites : ∀ addr, addr % 8 = 0 → x64AbiBase ≤ addr →
    Active generation.before.table addr ∨ CatchesUp generation.before addr →
      HasTarget generation.cfg generation.before.modules addr

/-- The targets that a generation gives ids. -/
def Generation.Targets (generation : Generation) (addr : Nat) : Prop :=
  HasTarget generation.cfg generation.before.modules addr

/-- An address is a Bary slot of a generation. -/
def Generation.Slots (generation : Generation) (addr : Nat) : Prop :=
  ∃ branch : Branch generation.before.modules, branch.sym.offset = addr

/--
A call after a generation marks landing pads outside the words of its branches and
targets, and restores a call only before a return address that is a target.
-/
structure Call.Keeps (last : Option Generation) (before : Runtime) (call : Call) :
    Prop where
  between : call.BetweenGenerations
  marksOutside : ∀ generation ∈ last, ∀ addr,
    generation.Slots addr ∨ generation.Targets addr → call.MarksOutside before addr
  returnTarget : ∀ generation ∈ last, ∀ patchpoint, call = .patchCall patchpoint →
    ∀ addr, call.Activates before addr → generation.Targets addr

/-- A call since the last generation, with the state that it found. -/
structure Patch where
  before : Runtime
  call : Call

/-- A call since the last generation has activated an address. -/
def Patched (patches : List Patch) (addr : Nat) : Prop :=
  ∃ patch ∈ patches, patch.call.Activates patch.before addr

/--
The runs of a process that loads modules, generates its CFG and leaves its patch
stubs, with the last generation and the calls since.
-/
inductive MediatedRun : Option Generation → List Patch → Runtime → Prop where
  | boot : MediatedRun none [] Runtime.boot
  | call
      {last : Option Generation} {patches : List Patch} {before after : Runtime}
      {call : Call}
      (run : MediatedRun last patches before)
      (keeps : call.Keeps last before)
      (returned : call.run before = .ok after) :
      MediatedRun last (⟨before, call⟩ :: patches) after
  | generate
      {last : Option Generation} {patches : List Patch} {runtime : Runtime}
      {generation : Generation}
      (run : MediatedRun last patches runtime)
      (runBy : generation.RunBy runtime)
      (relied : generation.Relied) :
      MediatedRun (some generation) [] generation.after

/-- What every call since a generation preserves of the tables. -/
structure Mediated (generation : Generation) (patches : List Patch)
    (state : Runtime) : Prop where
  slots : ∀ branch : Branch generation.before.modules,
    state.table.load64 branch.sym.offset = baryId generation.cfg.tables branch.sym
  targets : ∀ (target : TarySymbol generation.before.modules) (id : Nat),
    target.id generation.cfg.tables = some id →
      state.table.load64 target.addr ||| 1 = id
  active : ∀ addr, generation.Targets addr →
    (Active state.table addr ↔
      LeftActive generation.cfg generation.before addr ∨ Patched patches addr)
  owned : ∀ addr, addr % 8 = 0 → x64AbiBase ≤ addr →
    Active state.table addr → generation.Targets addr
  codeSites : SitesIn generation.Targets state.fatsInCode
  methodSites : SitesIn generation.Targets state.vmtd

/-- What a generation changes. -/
theorem Generation.outcome (generation : Generation) :
    GenCfgResult generation.cfg generation.before generation.after := by
  obtain ⟨other, otherRuns, outcome⟩ := genCfg_result generation.returned
  rw [generation.computed] at otherRuns
  cases otherRuns
  exact outcome

section Generated

variable {generation : Generation} (relied : generation.Relied)
include relied

/-- The targets of a generation lie on words above the slots. -/
theorem Generation.Relied.target_place {addr : Nat}
    (isTarget : generation.Targets addr) :
    addr % 8 = 0 ∧ x64AbiBase ≤ addr ∧
      TaryWord generation.before.modules addr := by
  obtain ⟨target, _, rfl, _⟩ := isTarget
  have aligned := relied.separate.target_aligned target
  have high := relied.high target.codeModule target.loaded
  refine ⟨aligned, ?_, aligned, ?_⟩
  · rw [TarySymbol.addr]
    omega
  · exact fun branch => relied.separate.apart branch target

/-- An aligned word above the slots is none of them. -/
theorem Generation.Relied.above {addr : Nat} (aligned : addr % 8 = 0)
    (high : x64AbiBase ≤ addr) : TaryWord generation.before.modules addr := by
  refine ⟨aligned, fun branch same => ?_⟩
  have low := relied.low branch
  omega

/-- After a generation that it can rely on, the process is mediated. -/
theorem Generation.Relied.mediated : Mediated generation [] generation.after := by
  have outcome := generation.outcome
  obtain ⟨facts⟩ := computeCfg_facts generation.computed
  have separate := relied.separate
  have slots := separate.toSlotsApart
  have native := nativeApart_of_instrumented relied.instrumented
  have fits : ∀ store ∈ tableUpdate generation.cfg.tables generation.before.modules,
      store.word < 2 ^ 64 := fun store => facts.fits
  -- the words before the compensation
  have slotFilled : ∀ branch : Branch generation.before.modules,
      (fillTables generation.cfg generation.before).table.load64 branch.sym.offset =
        baryId generation.cfg.tables branch.sym := fun branch =>
    baryWord slots native fits branch _
  have targetFilled : ∀ (target : TarySymbol generation.before.modules) (id : Nat),
      target.id generation.cfg.tables = some id →
        (fillTables generation.cfg generation.before).table.load64 target.addr ||| 1 =
          id := by
    intro target id found
    have isId := facts.assignment.taryId_isId target.kind found
    rcases taryWord separate native fits (relied.instrumented _ target.loaded) found
        ⟨generation.before.table, generation.cfg.fatsInCode, generation.cfg.vmtd⟩ with
      active | inactive
    · rw [fillTables, active, isId.or_one_eq]
    · rw [fillTables, inactive, isId.deactivate_or_one]
  -- the functions that are recorded for a later activation have ids
  have sites : SitesIn generation.Targets generation.after.fatsInCode ∧
      SitesIn generation.Targets generation.after.vmtd := by
    rw [outcome.fatsInCodeIs, outcome.vmtdIs, fillTables]
    refine sitesIn_runStores ?_ ?_ ?_
    · rintro store stored ⟨name, id, storeIs⟩
      rcases tableUpdate_store stored with
        ⟨target, instrumented, addrIs, found⟩ | ⟨_, _, _, _, isNative, _⟩ |
          ⟨branch, isBary⟩
      · exact ⟨target, instrumented, addrIs.symm, _, found⟩
      · rw [storeIs] at isNative
        cases isNative
      · rw [storeIs] at isBary
        cases isBary
    · rw [facts.fatsInCodeIs]
      exact (noSites_directFatsInCode _).sitesIn _
    · rw [facts.vmtdIs]
      exact (noSites_directVmtd _).sitesIn _
  refine {
    slots := ?_
    targets := ?_
    active := ?_
    owned := ?_
    codeSites := sites.1
    methodSites := sites.2 }
  · intro branch
    have isId := facts.assignment.baryId_isId relied.notCompat branch.sym
    rw [outcome.tableIs]
    rcases load64_compensated generation.cfg generation.before
        (separate.baryAligned branch) with ⟨_, set⟩ | ⟨_, kept⟩
    · rw [set, slotFilled, isId.or_one_eq]
    · rw [kept, slotFilled]
  · intro target id found
    rw [outcome.tableIs]
    rcases load64_compensated generation.cfg generation.before
        (separate.target_aligned target) with ⟨_, set⟩ | ⟨_, kept⟩
    · rw [set, or_one_twice, targetFilled target id found]
    · rw [kept, targetFilled target id found]
  · intro addr isTarget
    have place := relied.target_place isTarget
    rw [Active, active_generated_iff facts slots native outcome place.2.2]
    refine ⟨Or.inl, ?_⟩
    rintro (left | ⟨patch, listed, _⟩)
    · exact left
    · cases listed
  · intro addr aligned high active
    have tary := relied.above aligned high
    rw [Active, active_generated_iff facts slots native outcome tary] at active
    rcases active with caught | ⟨_, old | ⟨store, stored, here, _⟩⟩
    · exact relied.rewrites addr aligned high (Or.inr caught)
    · exact relied.rewrites addr aligned high (Or.inl old)
    · rcases tableUpdate_store stored with
        ⟨target, instrumented, addrIs, found⟩ | ⟨codeModule, loaded, isNative, _⟩ |
          ⟨branch, rfl⟩
      · exact ⟨target, instrumented, addrIs.symm.trans here, _, found⟩
      · rw [relied.instrumented codeModule loaded] at isNative
        cases isNative
      · exact (tary.2 branch here).elim

end Generated

/-- A call after a generation records no new sites. -/
private theorem Call.BetweenGenerations.sites
    {call : Call} {before after : Runtime} (between : call.BetweenGenerations)
    (returned : call.run before = .ok after) :
    (∀ name site, Linked after.fatsInCode name site →
        Linked before.fatsInCode name site) ∧
      after.vmtd = before.vmtd := by
  cases call with
  | load parsed =>
      cases returned
      exact ⟨fun _ _ linked => linked, rfl⟩
  | patchAt patchpoint =>
      obtain ⟨_, _, _, rfl, _, fewer⟩ := patchAt_cases returned
      exact ⟨fewer, rfl⟩
  | patchEntry patchpoint =>
      obtain ⟨_, _, _, _, _, _, _, _, rfl, _⟩ := patchEntry_cases returned
      exact ⟨fun _ _ linked => linked, rfl⟩
  | patchCall patchpoint =>
      rcases patchCall_cases returned with rfl | ⟨_, _, _, _, _, _, rfl⟩
      · exact ⟨fun _ _ linked => linked, rfl⟩
      · exact ⟨fun _ _ linked => linked, rfl⟩
  | generate attrs => exact between.elim
  | takeAddress attrs funcAddr => exact between.elim
  | createHeap ph page size verifier => exact between.elim
  | fill bufferAddr handle dst src extra => exact between.elim
  | register handle metadata => exact between.elim

section Steps

variable {generation : Generation} {patches : List Patch} {before after : Runtime}
  {call : Call} (mediated : Mediated generation patches before)
  (keeps : call.Keeps (some generation) before)
include mediated keeps

/-- What a call activates after a generation is a target. -/
private theorem Mediated.activates_target {addr : Nat}
    (activates : call.Activates before addr) : generation.Targets addr := by
  cases call with
  | patchAt patchpoint =>
      obtain ⟨_, name, _, _, listed⟩ := activates
      exact mediated.codeSites name addr (mem_targets.mp listed)
  | patchEntry patchpoint =>
      obtain ⟨_, _, listed⟩ := activates
      obtain ⟨name, linked⟩ := mem_ctorSites listed
      exact mediated.methodSites name addr linked
  | patchCall patchpoint =>
      exact keeps.returnTarget generation rfl patchpoint rfl addr activates
  | load parsed => exact activates.elim
  | generate attrs => exact activates.elim
  | takeAddress attrs funcAddr => exact activates.elim
  | createHeap ph page size verifier => exact activates.elim
  | fill bufferAddr handle dst src extra => exact activates.elim
  | register handle metadata => exact activates.elim

/-- A call after a generation keeps the process mediated. -/
theorem Mediated.after_call (relied : generation.Relied)
    (returned : call.run before = .ok after) :
    Mediated generation (⟨before, call⟩ :: patches) after := by
  obtain ⟨facts⟩ := computeCfg_facts generation.computed
  have codeAligned : SitesIn (· % 8 = 0) before.fatsInCode :=
    fun name site linked => (relied.target_place (mediated.codeSites name site linked)).1
  have methodAligned : SitesIn (· % 8 = 0) before.vmtd :=
    fun name site linked =>
      (relied.target_place (mediated.methodSites name site linked)).1
  have changes : ∀ addr, addr % 8 = 0 →
      generation.Slots addr ∨ generation.Targets addr →
        (call.Activates before addr ∧
            after.table.load64 addr = before.table.load64 addr ||| 1) ∨
          (¬ call.Activates before addr ∧
            after.table.load64 addr = before.table.load64 addr) :=
    fun addr aligned isWord => Call.word_changes keeps.between returned codeAligned
      methodAligned aligned (keeps.marksOutside generation rfl addr isWord)
  have patched : ∀ addr, Patched (⟨before, call⟩ :: patches) addr ↔
      call.Activates before addr ∨ Patched patches addr := by
    intro addr
    rw [Patched, List.exists_mem_cons_iff]
    exact Iff.rfl
  obtain ⟨fewer, sameMethods⟩ := keeps.between.sites returned
  refine {
    slots := ?_
    targets := ?_
    active := ?_
    owned := ?_
    codeSites := fun name site linked => mediated.codeSites name site
      (fewer name site linked)
    methodSites := sameMethods ▸ mediated.methodSites }
  · intro branch
    have isId := facts.assignment.baryId_isId relied.notCompat branch.sym
    rcases changes branch.sym.offset (relied.separate.baryAligned branch)
        (Or.inl ⟨branch, rfl⟩) with ⟨_, set⟩ | ⟨_, kept⟩
    · rw [set, mediated.slots, isId.or_one_eq]
    · rw [kept, mediated.slots]
  · intro target id found
    have isTarget : generation.Targets target.addr :=
      ⟨target, relied.instrumented _ target.loaded, rfl, id, found⟩
    rcases changes target.addr (relied.target_place isTarget).1 (Or.inr isTarget) with
      ⟨_, set⟩ | ⟨_, kept⟩
    · rw [set, or_one_twice, mediated.targets target id found]
    · rw [kept, mediated.targets target id found]
  · intro addr isTarget
    have earlier := mediated.active addr isTarget
    rw [patched]
    rcases changes addr (relied.target_place isTarget).1 (Or.inr isTarget) with
      ⟨activates, set⟩ | ⟨notActivates, kept⟩
    · refine iff_of_true ?_ (Or.inr (Or.inl activates))
      rw [Active, set, or_one]
      omega
    · rw [Active, kept, ← Active, earlier]
      exact or_congr_right (or_iff_right notActivates).symm
  · intro addr aligned high active
    rcases Call.active_of_after keeps.between returned codeAligned methodAligned
        aligned active with old | activates
    · exact mediated.owned addr aligned high old
    · exact mediated.activates_target keeps activates

end Steps

/-- No byte of the table is the marker of native code. -/
abbrev NoNative (fact : Nat × Nat) : Prop :=
  fact.2 ≠ NPV

/-- What holds in every state of a run, with or without a generation. -/
theorem MediatedRun.invariant
    {last : Option Generation} {patches : List Patch} {state : Runtime}
    (run : MediatedRun last patches state) :
    TaryInvariant NoNative state ∧
      ∀ generation ∈ last, generation.Relied ∧ Mediated generation patches state := by
  -- a call stores no marker of native code
  have stores : ∀ {call : Call} {before : Runtime} (addr marker : Nat),
      call.BetweenGenerations → call.StoresMarker before addr marker →
        NoNative (addr, marker) := by
    intro call before addr marker between stored
    cases call with
    | patchEntry patchpoint =>
        rw [NoNative, stored.1]
        exact (by decide : LPV ≠ NPV)
    | fill bufferAddr handle dst src extra => exact between.elim
    | _ => exact stored.elim
  have fills : ∀ {call : Call} {before : Runtime}, call.BetweenGenerations →
      call.FillsTary before := by
    intro call before between
    cases call with
    | generate attrs => exact between.elim
    | takeAddress attrs funcAddr => exact between.elim
    | register handle metadata => exact between.elim
    | _ => trivial
  induction run with
  | boot =>
      have started : TaryInvariant (fun _ => False) Runtime.boot :=
        MarkedRun.invariant .start
      refine ⟨⟨started.clean.weaken fun _ never => never.elim, started.codeSites,
        started.methodSites⟩, ?_⟩
      intro generation isLast
      cases isLast
  | call run keeps returned inductionHypothesis =>
      refine ⟨taryInvariant_call (fills keeps.between) returned
        (fun addr marker => stores addr marker keeps.between)
        inductionHypothesis.1, ?_⟩
      rintro generation rfl
      obtain ⟨relied, mediated⟩ := inductionHypothesis.2 generation rfl
      exact ⟨relied, mediated.after_call keeps relied returned⟩
  | @generate last patches runtime generation run runBy relied inductionHypothesis =>
      have before : TaryInvariant NoNative generation.before := by
        have earlier := inductionHypothesis.1
        cases runBy with
        | generate sameState => exact sameState ▸ earlier
        | takeAddress located sameState =>
            rw [sameState]
            exact ⟨earlier.clean, earlier.codeSites, earlier.methodSites⟩
      have ready : (Call.generate generation.attrs).FillsTary generation.before :=
        ⟨relied.notCompat, relied.instrumented, relied.separate.toAlignedSymbols⟩
      refine ⟨taryInvariant_call ready generation.returned
        (fun _ _ never => never.elim) before, ?_⟩
      rintro other sameGeneration
      cases sameGeneration
      exact ⟨relied, relied.mediated⟩

/-- A check that does not retry ends with what its first pass decides. -/
private theorem checkRun_eq
    {table : ByteMem} {slot addr : Nat} {verdict : Verdict}
    (ends : idCmp (table.load64 slot) (table.load64 addr) ≠ .retry) :
    CheckRun table slot addr verdict ↔
      idCmp (table.load64 slot) (table.load64 addr) = verdict := by
  constructor
  · intro run
    cases run with
    | decided decides => exact decides
    | again retries => exact (ends retries).elim
  · rintro rfl
    exact .decided rfl ends

/-- The first pass of a check decides, by the graphs and the activations. -/
private theorem Mediated.decides
    {generation : Generation} {patches : List Patch} {state : Runtime}
    (mediated : Mediated generation patches state) (relied : generation.Relied)
    (clean : CleanTable NoNative state.table)
    (branch : Branch generation.before.modules) {addr : Nat}
    (high : x64AbiBase ≤ addr) :
    (idCmp (state.table.load64 branch.sym.offset) (state.table.load64 addr) = .go ↔
        ∃ target : TarySymbol generation.before.modules, target.addr = addr ∧
          (∃ id, target.id generation.cfg.tables = some id) ∧
          Allowed generation.cfg branch target ∧
          (LeftActive generation.cfg generation.before addr ∨ Patched patches addr)) ∧
      idCmp (state.table.load64 branch.sym.offset) (state.table.load64 addr) ≠
        .retry := by
  obtain ⟨facts⟩ := computeCfg_facts generation.computed
  have branchIs := mediated.slots branch
  have branchId := facts.assignment.baryId_isId relied.notCompat branch.sym
  have isTarget : ∀ (target : TarySymbol generation.before.modules) (id : Nat),
      target.id generation.cfg.tables = some id → generation.Targets target.addr :=
    fun target id found =>
      ⟨target, relied.instrumented _ target.loaded, rfl, id, found⟩
  rw [branchIs]
  by_cases aligned : addr % 8 = 0
  · by_cases active : Active state.table addr
    · -- an active word is the id of a target
      obtain ⟨owner, _, ownerIs, ownerId, ownerFound⟩ :=
        mediated.owned addr aligned high active
      have wordIs : ∀ (target : TarySymbol generation.before.modules) (id : Nat),
          target.addr = addr → target.id generation.cfg.tables = some id →
            state.table.load64 addr = id := by
        rintro target id rfl found
        rw [← or_one_of_odd active]
        exact mediated.targets target id found
      have word := wordIs owner ownerId ownerIs ownerFound
      have ownerIsId := facts.assignment.taryId_isId owner.kind ownerFound
      have notMarker : state.table.load64 addr % 256 ≠ NPV := by
        rw [Active] at active
        unfold NPV
        omega
      constructor
      · rw [idCmp_eq_go, or_iff_left notMarker]
        constructor
        · intro same
          rw [word] at same
          refine ⟨owner, ownerIs, ⟨ownerId, ownerFound⟩,
            (baryId_eq_iff_allowed facts relied.notCompat relied.few branch
              ownerFound).mp same, ?_⟩
          exact (mediated.active addr (ownerIs ▸ isTarget owner ownerId ownerFound)).mp
            active
        · rintro ⟨target, targetIs, ⟨id, found⟩, allowed, _⟩
          rw [wordIs target id targetIs found]
          exact allowed.baryId_eq facts found
      · rw [ne_eq, idCmp_eq_retry, word, branchId.low, ownerIsId.low]
        exact fun differ => differ.2 rfl
    · -- an inactive word is even, and no marker of native code
      have even : state.table.load64 addr % 2 = 0 := by
        rw [Active] at active
        omega
      have notMarker : state.table.load64 addr % 256 ≠ NPV := by
        rw [load64_mod]
        intro isNative
        exact clean.stored addr (isMarker_of_native isNative) isNative
      constructor
      · rw [idCmp_eq_go, or_iff_left notMarker]
        refine iff_of_false ?_ ?_
        · intro same
          have odd := branchId.odd
          rw [same] at odd
          omega
        · rintro ⟨target, rfl, ⟨id, found⟩, _, activated⟩
          exact active ((mediated.active _ (isTarget target id found)).mpr activated)
      · rw [ne_eq, idCmp_eq_retry]
        intro retries
        omega
  · -- nothing can be reached off the words
    have reports := (clean.reports aligned branchId.odd).2.2.2
    rw [reports]
    refine ⟨iff_of_false Verdict.noConfusion ?_, Verdict.noConfusion⟩
    rintro ⟨target, rfl, _⟩
    exact aligned (relied.separate.target_aligned target)

end Runs

end Mcfi
