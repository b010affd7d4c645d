import Mcfi.CfgGrowth
import Mcfi.DuplicateKeys

namespace Mcfi

open LinkMap ByteMem

/-!
# Taking the address of a function at run time

`dlsym` passes every address it resolves to `take_addr_and_gen_cfg`, which looks it up
in the `dynfuncs` tables of the modules, adds the names of the function to the taken
ones and generates the CFG.  The tables hold the global functions of the dynamic
symbol tables only, and `dict_add` asserts that a name is new, so that the process ends
at the other symbols and at every second request.
-/

section Searching

/-- The module and the names that the search of `take_addr_and_gen_cfg` ends with. -/
def dynfuncNames (modules : List CodeModule) (funcAddr : Nat) :
    Option (CodeModule × KeySet Name) :=
  match modules with
  | [] => none
  | codeModule :: rest =>
      if codeModule.Holds funcAddr then
        match dictFind codeModule.dynfuncs (funcAddr - codeModule.baseAddr) with
        | some names => some (codeModule, names)
        | none => dynfuncNames rest (funcAddr - codeModule.baseAddr)
      else
        dynfuncNames rest funcAddr

/-- Names that are new to a set, added one after the other. -/
def addNames (fats names : KeySet Name) : KeySet Name :=
  names.keys.foldl (fun fats name => fats.insertNew name ()) fats

/-- The modules with the names of a function among the taken ones. -/
def withDynfuncNames (modules : List CodeModule) (funcAddr : Nat) :
    List CodeModule :=
  match modules with
  | [] => []
  | codeModule :: rest =>
      if codeModule.Holds funcAddr then
        match dictFind codeModule.dynfuncs (funcAddr - codeModule.baseAddr) with
        | some names =>
            { codeModule with fats := addNames codeModule.fats names } :: rest
        | none =>
            codeModule :: withDynfuncNames rest (funcAddr - codeModule.baseAddr)
      else
        codeModule :: withDynfuncNames rest funcAddr

/-- None of the names found for an address is among the taken ones of its module. -/
def NamesFresh (modules : List CodeModule) (funcAddr : Nat) : Prop :=
  ∀ codeModule names, dynfuncNames modules funcAddr = some (codeModule, names) →
    ∀ name ∈ names, name ∉ codeModule.fats

/-- Adding names that are all new is adding each of them. -/
theorem foldlM_dictAdd_names {fats names result : KeySet Name} :
    names.keys.foldlM (fun fats name => dictAdd fats name ()) fats = .ok result ↔
      (∀ name ∈ names, name ∉ fats) ∧ addNames fats names = result := by
  have sameFold : ∀ (keys : List Name) {start final : KeySet Name},
      keys.foldlM (fun fats name => dictAdd fats name ()) start = .ok final →
        keys.foldl (fun fats name => fats.insertNew name ()) start = final := by
    intro keys
    induction keys with
    | nil =>
        intro start final runs
        rwa [List.foldlM_nil, pure_eq_ok] at runs
    | cons key rest inductionHypothesis =>
        intro start final runs
        rw [List.foldlM_cons] at runs
        obtain ⟨middle, first, later⟩ := bind_eq_ok.mp runs
        obtain ⟨_, rfl⟩ := dictAdd_eq_ok.mp first
        exact inductionHypothesis later
  constructor
  · intro runs
    refine ⟨fun name present => ?_, sameFold names.keys runs⟩
    exact (foldlM_dictAdd_eq_ok runs).2.1 name (OrdDict.mem_keys.mpr present)
  · rintro ⟨fresh, rfl⟩
    obtain ⟨final, runs⟩ := foldlM_dictAdd_ok () (OrdDict.keys_nodup names)
      fun name listed => fresh name (OrdDict.mem_keys.mp listed)
    rw [runs]
    exact congrArg _ (sameFold names.keys runs).symm

/-- A name that has been added is there, as are the old ones. -/
theorem mem_addNames {fats names : KeySet Name} {name : Name} :
    name ∈ addNames fats names ↔ name ∈ names ∨ name ∈ fats := by
  have fold : ∀ (keys : List Name) (start : KeySet Name),
      name ∈ keys.foldl (fun fats name => fats.insertNew name ()) start ↔
        name ∈ keys ∨ name ∈ start := by
    intro keys
    induction keys with
    | nil => simp
    | cons key rest inductionHypothesis =>
        intro start
        rw [List.foldl_cons, inductionHypothesis, OrdDict.mem_insertNew,
          List.mem_cons]
        tauto
  rw [addNames, fold, OrdDict.mem_keys]

/-- The search returns exactly on new names, which it adds. -/
theorem locate_eq_ok
    {modules located : List CodeModule} {funcAddr : Nat}
    {found : Option (KeySet Name)} :
    takeAddrAndGenCfg.locate modules funcAddr = .ok (located, found) ↔
      NamesFresh modules funcAddr ∧ withDynfuncNames modules funcAddr = located ∧
        (dynfuncNames modules funcAddr).map Prod.snd = found := by
  induction modules generalizing funcAddr located found with
  | nil => simp [takeAddrAndGenCfg.locate, NamesFresh, dynfuncNames, withDynfuncNames]
  | cons head rest inductionHypothesis =>
      have passed : ∀ addr,
          (takeAddrAndGenCfg.locate rest addr >>= fun later =>
            Except.ok (head :: later.1, later.2)) = Except.ok (located, found) ↔
          NamesFresh rest addr ∧ head :: withDynfuncNames rest addr = located ∧
            (dynfuncNames rest addr).map Prod.snd = found := by
        intro addr
        rw [bind_eq_ok]
        constructor
        · rintro ⟨⟨later, laterFound⟩, searched, stored⟩
          obtain ⟨fresh, laterIs, foundIs⟩ := inductionHypothesis.mp searched
          cases stored
          exact ⟨fresh, congrArg _ laterIs, foundIs⟩
        · rintro ⟨fresh, rfl, rfl⟩
          exact ⟨_, inductionHypothesis.mpr ⟨fresh, rfl, rfl⟩, rfl⟩
      by_cases holds : head.Holds funcAddr
      · cases hit : dictFind head.dynfuncs (funcAddr - head.baseAddr) with
        | some names =>
            simp only [takeAddrAndGenCfg.locate, withDynfuncNames, NamesFresh,
              dynfuncNames, if_pos holds, hit, bind_eq_ok, foldlM_dictAdd_names,
              pure_eq_ok, Option.some.injEq, Prod.mk.injEq, Option.map_some]
            constructor
            · rintro ⟨_, ⟨fresh, rfl⟩, rfl, rfl⟩
              refine ⟨?_, rfl, rfl⟩
              rintro _ _ ⟨rfl, rfl⟩
              exact fresh
            · rintro ⟨fresh, rfl, rfl⟩
              exact ⟨_, ⟨fresh head names ⟨rfl, rfl⟩, rfl⟩, rfl, rfl⟩
        | none =>
            simp only [takeAddrAndGenCfg.locate, withDynfuncNames, NamesFresh,
              dynfuncNames, if_pos holds, hit]
            exact passed _
      · simp only [takeAddrAndGenCfg.locate, withDynfuncNames, NamesFresh,
          dynfuncNames, if_neg holds]
        exact passed _

/-- The search finds the names of a module in the list. -/
theorem dynfuncNames_mem
    {modules : List CodeModule} {funcAddr : Nat} {codeModule : CodeModule}
    {names : KeySet Name}
    (found : dynfuncNames modules funcAddr = some (codeModule, names)) :
    codeModule ∈ modules ∧ ∃ offset, codeModule.dynfuncs.find offset = some names := by
  induction modules generalizing funcAddr with
  | nil => cases found
  | cons head rest inductionHypothesis =>
      have passed : ∀ {addr}, dynfuncNames rest addr = some (codeModule, names) →
          codeModule ∈ head :: rest ∧
            ∃ offset, codeModule.dynfuncs.find offset = some names :=
        fun later => (inductionHypothesis later).imp_left (List.mem_cons_of_mem _)
      rw [dynfuncNames] at found
      split at found
      next =>
        split at found
        next hit =>
          cases found
          exact ⟨List.mem_cons_self, _, hit⟩
        next => exact passed found
      next => exact passed found

/-- After the names have been added the search finds them among the taken ones. -/
theorem dynfuncNames_withDynfuncNames
    {modules : List CodeModule} {funcAddr : Nat} {codeModule : CodeModule}
    {names : KeySet Name}
    (found : dynfuncNames modules funcAddr = some (codeModule, names)) :
    dynfuncNames (withDynfuncNames modules funcAddr) funcAddr =
      some ({ codeModule with fats := addNames codeModule.fats names }, names) := by
  induction modules generalizing funcAddr with
  | nil => cases found
  | cons head rest inductionHypothesis =>
      by_cases holds : head.Holds funcAddr
      · cases hit : dictFind head.dynfuncs (funcAddr - head.baseAddr) with
        | some added =>
            simp only [dynfuncNames, if_pos holds, hit] at found
            cases found
            have holdsStill : CodeModule.Holds
                { codeModule with fats := addNames codeModule.fats names } funcAddr :=
              holds
            simp only [withDynfuncNames, if_pos holds, hit, dynfuncNames,
              if_pos holdsStill]
        | none =>
            simp only [dynfuncNames, if_pos holds, hit] at found
            simp only [withDynfuncNames, if_pos holds, hit, dynfuncNames]
            exact inductionHypothesis found
      · simp only [dynfuncNames, if_neg holds] at found
        simp only [withDynfuncNames, if_neg holds, dynfuncNames]
        exact inductionHypothesis found

end Searching

section Generating

/--
The threads let a generation end: each live one is registered, and the space of
versions is not used up, unless all threads have been outside since.
-/
structure ThreadsSettle (runtime : Runtime) : Prop where
  registered : ∀ tcb ∈ runtime.tcbs, tcb.remove = false →
    tcb.self ∈ runtime.threadEscapeMap
  space : (runtime.versionSpace + 1) % 2 ^ 32 < versionSpaceMax ∨
    safe runtime.threadEscapeMap runtime.tcbs = .ok true

/-- `update_thesc` returns when the live threads are registered. -/
theorem updateThesc_returns_iff {tcbs : List Tcb} {map : OrdDict Nat Nat} :
    (∃ result, updateThesc tcbs map = .ok result) ↔
      ∀ tcb ∈ tcbs, tcb.remove = false → tcb.self ∈ map := by
  refine foldlM_returns_iff
    (fun current => ∀ key, key ∈ current ↔ key ∈ map)
    (fun tcb : Tcb => tcb.remove = false → tcb.self ∈ map) ?_ ?_ fun _ => Iff.rfl
  · intro tcb _ current same
    cases removed : tcb.remove with
    | true => simp
    | false =>
        cases found : dictFind current tcb.self with
        | none =>
            have absent : tcb.self ∉ map := by
              rw [← same]
              exact OrdDict.find_eq_none.mp found
            simp [absent]
        | some value =>
            have present := (same tcb.self).mp (OrdDict.mem_of_find found)
            simp [present]
  · intro tcb _ current next same runs key
    cases removed : tcb.remove with
    | true =>
        rw [removed, if_pos rfl, pure_eq_ok] at runs
        rw [← runs]
        exact same key
    | false =>
        rw [removed, if_neg Bool.false_ne_true] at runs
        cases found : dictFind current tcb.self with
        | none =>
            rw [found] at runs
            cases runs
        | some value =>
            rw [found, pure_eq_ok] at runs
            rw [← runs, OrdDict.mem_modify]
            exact same key

/-- `safe` returns when the live threads are registered. -/
theorem safe_returns_registered {tcbs : List Tcb} {map : OrdDict Nat Nat}
    (registered : ∀ tcb ∈ tcbs, tcb.remove = false → tcb.self ∈ map) :
    ∃ answer, safe map tcbs = .ok answer := by
  induction tcbs with
  | nil => exact ⟨true, rfl⟩
  | cons tcb rest inductionHypothesis =>
      have later := inductionHypothesis fun other listed =>
        registered other (List.mem_cons_of_mem _ listed)
      rw [safe]
      cases removed : tcb.remove with
      | true => simpa using later
      | false =>
          obtain ⟨escapes, found⟩ := OrdDict.exists_find_of_mem
            (registered tcb List.mem_cons_self removed)
          rw [if_neg Bool.false_ne_true, dictFind, found]
          simp only
          split
          next => exact ⟨false, rfl⟩
          next => exact later

/--
A generation returns exactly when no function implements a virtual method in two
classes of one inheritance group and the threads let it end.
-/
theorem genCfg_returns (attrs : UInt8) (runtime : Runtime) :
    (∃ result, genCfg attrs runtime = .ok result) ↔
      SeparateImplementations (mergeMcfiMetainfo runtime.modules) ∧
        ThreadsSettle runtime := by
  rw [← computeCfg_returns attrs runtime]
  constructor
  · rintro ⟨result, runs⟩
    obtain ⟨cfg, computed, runs⟩ := bind_eq_ok.mp runs
    obtain ⟨space, spaceRuns, runs⟩ := bind_eq_ok.mp runs
    obtain ⟨escapes, updated, _⟩ := bind_eq_ok.mp runs
    refine ⟨⟨cfg, computed⟩, updateThesc_returns_iff.mp ⟨escapes, updated⟩, ?_⟩
    obtain ⟨answer, asked, spaceRuns⟩ := bind_eq_ok.mp spaceRuns
    rw [asked]
    split at spaceRuns
    next small => exact .inl small
    next =>
      split at spaceRuns
      next isSafe => exact .inr (congrArg _ isSafe)
      next => cases spaceRuns
  · rintro ⟨⟨cfg, computed⟩, settle⟩
    obtain ⟨answer, asked⟩ := safe_returns_registered settle.registered
    obtain ⟨escapes, updated⟩ := updateThesc_returns_iff.mpr settle.registered
    obtain ⟨space, spaceRuns⟩ : ∃ space, nextVersionSpace runtime.versionSpace
        (safe runtime.threadEscapeMap runtime.tcbs) = .ok space := by
      have counted := settle.space
      rw [asked] at counted ⊢
      simp only [nextVersionSpace, bind, Except.bind]
      split
      next => exact ⟨_, rfl⟩
      next large =>
        have isSafe : answer = true := Except.ok.inj (counted.resolve_left large)
        rw [isSafe]
        exact ⟨0, rfl⟩
    exact ⟨_, bind_eq_ok.mpr ⟨cfg, computed, bind_eq_ok.mpr ⟨space, spaceRuns,
      bind_eq_ok.mpr ⟨escapes, updated, rfl⟩⟩⟩⟩

/-- Adding names changes nothing but the taken names of the merged metadata. -/
theorem mergeMcfiMetainfo_withDynfuncNames (modules : List CodeModule)
    (funcAddr : Nat) :
    ∃ fats, mergeMcfiMetainfo (withDynfuncNames modules funcAddr) =
      { mergeMcfiMetainfo modules with fats := fats } := by
  have same : ∀ (modules : List CodeModule) (info : Metainfo) (fats : KeySet Name),
      ∃ later, modules.foldl mergeModule { info with fats := fats } =
        { modules.foldl mergeModule info with fats := later } := by
    intro modules
    induction modules with
    | nil => exact fun info fats => ⟨fats, rfl⟩
    | cons head rest inductionHypothesis =>
        exact fun info fats =>
          inductionHypothesis (mergeModule info head) (mergeDicts fats head.fats)
  have fold : ∀ (modules : List CodeModule) (funcAddr : Nat) (info : Metainfo),
      ∃ later, (withDynfuncNames modules funcAddr).foldl mergeModule info =
        { modules.foldl mergeModule info with fats := later } := by
    intro modules
    induction modules with
    | nil => exact fun _ info => ⟨info.fats, rfl⟩
    | cons head rest inductionHypothesis =>
        intro funcAddr info
        rw [withDynfuncNames]
        split
        next =>
          split
          next names _ =>
            exact same rest (mergeModule info head)
              (mergeDicts info.fats (addNames head.fats names))
          next => exact inductionHypothesis _ (mergeModule info head)
        next => exact inductionHypothesis _ (mergeModule info head)
  exact fold modules funcAddr Metainfo.empty

/-- The state in which `take_addr_and_gen_cfg` generates the CFG. -/
def Runtime.withNames (runtime : Runtime) (funcAddr : Nat) : Runtime :=
  { runtime with modules := withDynfuncNames runtime.modules funcAddr }

/-- A request adds the names of the function and generates. -/
theorem takeAddrAndGenCfg_eq_ok
    {attrs : UInt8} {funcAddr : Nat} {runtime result : Runtime} :
    takeAddrAndGenCfg attrs funcAddr runtime = .ok result ↔
      (dynfuncNames runtime.modules funcAddr).isSome = true ∧
        NamesFresh runtime.modules funcAddr ∧
          genCfg attrs (runtime.withNames funcAddr) = .ok result := by
  unfold takeAddrAndGenCfg
  rw [bind_eq_ok]
  constructor
  · rintro ⟨⟨modules, names⟩, searched, generates⟩
    obtain ⟨fresh, rfl, foundIs⟩ := locate_eq_ok.mp searched
    cases names with
    | none => cases generates
    | some names =>
        obtain ⟨hit, found, _⟩ := Option.map_eq_some_iff.mp foundIs
        exact ⟨by rw [found]; rfl, fresh, generates⟩
  · rintro ⟨found, fresh, generates⟩
    refine ⟨_, locate_eq_ok.mpr ⟨fresh, rfl, rfl⟩, ?_⟩
    obtain ⟨hit, foundIs⟩ := Option.isSome_iff_exists.mp found
    rw [foundIs]
    exact generates

/--
An address that `take_addr_and_gen_cfg` accepts: the search finds it in `dynfuncs`,
its names are not taken yet, and the CFG can be generated as it stands.
-/
structure Requestable (runtime : Runtime) (funcAddr : Nat) : Prop where
  found : (dynfuncNames runtime.modules funcAddr).isSome = true
  fresh : NamesFresh runtime.modules funcAddr
  separate : SeparateImplementations (mergeMcfiMetainfo runtime.modules)
  settle : ThreadsSettle runtime

/-- A request returns exactly on such an address. -/
theorem takeAddrAndGenCfg_returns (attrs : UInt8) (funcAddr : Nat)
    (runtime : Runtime) :
    (∃ result, takeAddrAndGenCfg attrs funcAddr runtime = .ok result) ↔
      Requestable runtime funcAddr := by
  have generates : (∃ result, genCfg attrs (runtime.withNames funcAddr) = .ok result) ↔
      SeparateImplementations (mergeMcfiMetainfo runtime.modules) ∧
        ThreadsSettle runtime := by
    obtain ⟨fats, mergedIs⟩ :=
      mergeMcfiMetainfo_withDynfuncNames runtime.modules funcAddr
    rw [genCfg_returns]
    refine and_congr ?_ ⟨fun settle => ⟨settle.1, settle.2⟩,
      fun settle => ⟨settle.1, settle.2⟩⟩
    rw [Runtime.withNames, mergedIs]
    exact Iff.rfl
  constructor
  · rintro ⟨result, returned⟩
    obtain ⟨found, fresh, generated⟩ := takeAddrAndGenCfg_eq_ok.mp returned
    obtain ⟨separate, settle⟩ := generates.mp ⟨result, generated⟩
    exact ⟨found, fresh, separate, settle⟩
  · rintro ⟨found, fresh, separate, settle⟩
    obtain ⟨result, generated⟩ := generates.mpr ⟨separate, settle⟩
    exact ⟨result, takeAddrAndGenCfg_eq_ok.mpr ⟨found, fresh, generated⟩⟩

end Generating

end Mcfi
