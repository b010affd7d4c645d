import Mcfi.CheckTermination
import Mcfi.DynamicSymbols
import Mcfi.TakenAddresses

namespace Mcfi

open LinkMap ByteMem

/-!
# The targets that `dlsym` hands out

The request for a function adds its names to the taken ones and generates the CFG, but
a function whose address is taken in code only, or a virtual method that waits for a
constructor, is stored inactive like any other: nothing tells the passes that the
program has the address now.
-/

section Generations

variable {attrs : UInt8} {before after : Runtime} {cfg : CfgData} {addr : Nat}

/-- The call graph of a generation has the node of a function name. -/
def NameVertex (attrs : UInt8) (runtime : Runtime) (name : Name) : Prop :=
  ∃ callgraph allFuncs,
    buildCallgraph attrs (mergeMcfiMetainfo runtime.modules) =
      .ok (callgraph, allFuncs) ∧ markFunc name ∈ callgraph

/-- A symbol of an instrumented module at an address that the next generation writes. -/
def WrittenNext (attrs : UInt8) (runtime : Runtime) (addr : Nat) : Prop :=
  ∃ target : TarySymbol runtime.modules, target.codeModule.instrumented = true ∧
    target.addr = addr ∧ target.Vertex attrs

/--
The next generation leaves the word at an address active: it catches up on its
activation, or the word is not native and is active already or that of a symbol that
needs no patch.
-/
def LeftActiveNext (attrs : UInt8) (runtime : Runtime) (addr : Nat) : Prop :=
  CatchesUp runtime addr ∨ ¬ InNative runtime.modules addr ∧
    (Active runtime.table addr ∨ ∃ target : TarySymbol runtime.modules,
      target.codeModule.instrumented = true ∧ target.addr = addr ∧
        target.Vertex attrs ∧ target.NeedsNoPatch)

/-- The version that the next generation stamps on its words, with bit 0 set. -/
def Runtime.nextStamp (runtime : Runtime) : Nat :=
  (convertToMcfiHalfIdFormat runtime.version).1 + 1

/-- The next generation writes the word, or it has the next version by chance. -/
def StampedNext (attrs : UInt8) (runtime : Runtime) (addr : Nat) : Prop :=
  WrittenNext attrs runtime addr ∨ ¬ InNative runtime.modules addr ∧
    (runtime.table.load64 addr ||| 1) % 2 ^ 32 = runtime.nextStamp

/-- The names with an id are those of the vertices. -/
theorem mem_callids_iff (computed : computeCfg attrs before = .ok cfg) (name : Name) :
    markFunc name ∈ cfg.tables.callids ↔ NameVertex attrs before name := by
  obtain ⟨allFuncs, built, _⟩ := computeCfg_graphs computed
  obtain ⟨facts⟩ := computeCfg_facts computed
  rw [facts.assignment.callIds.memIff]
  constructor
  · exact fun present => ⟨cfg.callgraph, allFuncs, built, present⟩
  · rintro ⟨callgraph, otherFuncs, otherBuilt, present⟩
    rw [built] at otherBuilt
    cases otherBuilt
    exact present

/-- The symbols that a generation writes have their stores. -/
theorem hasTarget_iff (computed : computeCfg attrs before = .ok cfg) :
    HasTarget cfg before.modules addr ↔ WrittenNext attrs before addr := by
  simp only [HasTarget, WrittenNext, TarySymbol.id_iff_vertex computed]

/-- The stores that activate a word are those of symbols that need no patch. -/
theorem exists_activates_iff (computed : computeCfg attrs before = .ok cfg)
    (tary : TaryWord before.modules addr) :
    (∃ store ∈ tableUpdate cfg.tables before.modules, store.addr = addr ∧
        store.Activates ⟨before.table, cfg.fatsInCode, cfg.vmtd⟩) ↔
      ∃ target : TarySymbol before.modules, target.codeModule.instrumented = true ∧
        target.addr = addr ∧ target.Vertex attrs ∧ target.NeedsNoPatch := by
  obtain ⟨facts⟩ := computeCfg_facts computed
  rw [facts.fatsInCodeIs, facts.vmtdIs]
  constructor
  · rintro ⟨store, stored, here, activates⟩
    obtain ⟨codeModule, loaded, inTary | inBary⟩ := mem_tableUpdate.mp stored
    · cases flag : codeModule.instrumented with
      | false =>
          obtain ⟨index, below, rfl⟩ := (mem_genTary_native flag).mp inTary
          exact activates.elim
      | true =>
          have vertex : ∀ (target : TarySymbol before.modules) (id : Nat),
              target.id cfg.tables = some id → target.Vertex attrs :=
            fun target id found => (target.id_iff_vertex computed).mp ⟨id, found⟩
          rcases (mem_genTary_instrumented flag).mp inTary with
            ⟨sym, listed, id, found, rfl⟩ | ⟨sym, listed, id, found, rfl⟩ |
              ⟨sym, listed, id, found, rfl⟩
          · exact ⟨⟨codeModule, loaded, .function, sym, listed⟩, flag, here,
              vertex _ id found, activates⟩
          · exact ⟨⟨codeModule, loaded, .directReturn, sym, listed⟩, flag, here,
              vertex _ id found, activates⟩
          · exact ⟨⟨codeModule, loaded, .indirectReturn, sym, listed⟩, flag, here,
              vertex _ id found, activates⟩
    · obtain ⟨sym, listed, rfl⟩ := mem_genBary.mp inBary
      exact absurd here (tary.2 ⟨codeModule, loaded, sym, listed⟩)
  · rintro ⟨target, instrumented, here, vertex, needsNo⟩
    obtain ⟨id, found⟩ := (target.id_iff_vertex computed).mpr vertex
    obtain ⟨codeModule, loaded, kind, sym, listed⟩ := target
    have stored : ∀ store ∈ genTary cfg.tables codeModule,
        store ∈ tableUpdate cfg.tables before.modules :=
      fun store inTary => mem_tableUpdate.mpr ⟨codeModule, loaded, .inl inTary⟩
    have member : ∀ store, store ∈ genTary cfg.tables codeModule ↔ _ :=
      fun store => mem_genTary_instrumented instrumented
    cases kind with
    | function =>
        exact ⟨_, stored _ ((member _).mpr (.inl ⟨sym, listed, id, found, rfl⟩)),
          here, needsNo⟩
    | directReturn =>
        exact ⟨_, stored _ ((member _).mpr
          (.inr (.inl ⟨sym, listed, id, found, rfl⟩))), here, needsNo⟩
    | indirectReturn =>
        exact ⟨_, stored _ ((member _).mpr
          (.inr (.inr ⟨sym, listed, id, found, rfl⟩))), here, needsNo⟩

end Generations

section Requests

variable {attrs : UInt8} {funcAddr : Nat} {runtime result : Runtime}

/--
After a request that returned, the word at the address is active and has the current
version, if a name of the function has a call id.
-/
def DlsymCallable (attrs : UInt8) (funcAddr : Nat) (runtime result : Runtime) : Prop :=
  ∀ codeModule names cfg,
    dynfuncNames runtime.modules funcAddr = some (codeModule, names) →
      computeCfg attrs (runtime.withNames funcAddr) = .ok cfg →
        (∃ name ∈ names, markFunc name ∈ cfg.tables.callids) →
          Active result.table funcAddr ∧
            result.table.load64 funcAddr % 2 ^ 32 = runtime.nextStamp

/-- The request leaves the word of a function with an id active and stamped. -/
def ActivatedByDlsym (attrs : UInt8) (funcAddr : Nat) (runtime : Runtime) : Prop :=
  (∃ codeModule names,
    dynfuncNames runtime.modules funcAddr = some (codeModule, names) ∧
      ∃ name ∈ names, NameVertex attrs (runtime.withNames funcAddr) name) →
    LeftActiveNext attrs (runtime.withNames funcAddr) funcAddr ∧
      StampedNext attrs (runtime.withNames funcAddr) funcAddr

/-- Adding names moves no symbol. -/
theorem words_withNames (runtime : Runtime) (funcAddr : Nat) :
    (runtime.withNames funcAddr).modules.map CodeModule.words =
      runtime.modules.map CodeModule.words := by
  have fold : ∀ (modules : List CodeModule) (funcAddr : Nat),
      (withDynfuncNames modules funcAddr).map CodeModule.words =
        modules.map CodeModule.words := by
    intro modules
    induction modules with
    | nil => exact fun _ => rfl
    | cons head rest inductionHypothesis =>
        intro funcAddr
        rw [withDynfuncNames]
        split
        next =>
          split
          next => rfl
          next => rw [List.map_cons, List.map_cons, inductionHypothesis]
        next => rw [List.map_cons, List.map_cons, inductionHypothesis]
  exact fold runtime.modules funcAddr

/-- The words of modules with the same places are as far apart. -/
theorem SlotsApart.mono {before after : List CodeModule}
    (keeps : KeepsView CodeModule.words after before) (slots : SlotsApart before) :
    SlotsApart after where
  taryAligned target := by
    obtain ⟨other, _, _, _, sameSym⟩ := keeps.tarySymbol target
    rw [← sameSym]
    exact slots.taryAligned other
  baryAligned branch := by
    obtain ⟨other, sameSym⟩ := keeps.branch branch
    rw [← sameSym]
    exact slots.baryAligned other
  barySeparate first second := by
    obtain ⟨other, sameSym⟩ := keeps.branch first
    obtain ⟨another, sameOther⟩ := keeps.branch second
    rw [← sameSym, ← sameOther]
    exact slots.barySeparate other another
  apart branch target := by
    obtain ⟨other, sameSym⟩ := keeps.branch branch
    obtain ⟨another, sameAddr, _⟩ := keeps.tarySymbol target
    rw [← sameSym, ← sameAddr]
    exact slots.apart other another

theorem NativeApart.mono {before after : List CodeModule}
    (keeps : KeepsView CodeModule.words after before) (native : NativeApart before) :
    NativeApart after where
  targets codeModule loaded isNative target instrumented := by
    obtain ⟨other, otherLoaded, flag, sameHolds⟩ := keeps.range loaded
    obtain ⟨another, sameAddr, sameFlag, _⟩ := keeps.tarySymbol target
    rw [← sameHolds, ← sameAddr]
    exact native.targets other otherLoaded (flag.trans isNative) another
      (sameFlag.trans instrumented)
  slots codeModule loaded isNative branch := by
    obtain ⟨other, otherLoaded, flag, sameHolds⟩ := keeps.range loaded
    obtain ⟨another, sameSym⟩ := keeps.branch branch
    rw [← sameHolds, ← sameSym]
    exact native.slots other otherLoaded (flag.trans isNative) another

theorem TaryWord.mono {before after : List CodeModule} {addr : Nat}
    (keeps : KeepsView CodeModule.words after before) (tary : TaryWord before addr) :
    TaryWord after addr := by
  refine ⟨tary.1, fun branch => ?_⟩
  obtain ⟨other, sameSym⟩ := keeps.branch branch
  rw [← sameSym]
  exact tary.2 other

/--
An address that `dlsym` hands out is callable exactly when no name of the function has
a call id, or the generation that the request runs leaves its word active and stamps
it: a symbol at the address is written and, unless the word is active already, one of
them needs no patch.
-/
theorem dlsymCallable_iff (slots : SlotsApart runtime.modules)
    (native : NativeApart runtime.modules) (tary : TaryWord runtime.modules funcAddr)
    (returned : takeAddrAndGenCfg attrs funcAddr runtime = .ok result) :
    DlsymCallable attrs funcAddr runtime result ↔
      ActivatedByDlsym attrs funcAddr runtime := by
  obtain ⟨isFound, _, generated⟩ := takeAddrAndGenCfg_eq_ok.mp returned
  obtain ⟨⟨codeModule, names⟩, found⟩ := Option.isSome_iff_exists.mp isFound
  obtain ⟨cfg, computed, outcome⟩ := genCfg_result generated
  obtain ⟨facts⟩ := computeCfg_facts computed
  have keeps : KeepsView CodeModule.words (runtime.withNames funcAddr).modules
      runtime.modules := KeepsView.of_map_eq (words_withNames runtime funcAddr).symm
  have slotsThere := slots.mono keeps
  have nativeThere := native.mono keeps
  have taryThere := tary.mono keeps
  have left : LeftActive cfg (runtime.withNames funcAddr) funcAddr ↔
      LeftActiveNext attrs (runtime.withNames funcAddr) funcAddr := by
    unfold LeftActive LeftActiveNext
    rw [exists_activates_iff computed taryThere]
    exact Iff.rfl
  have stamped : HasNewVersion cfg (runtime.withNames funcAddr) funcAddr ↔
      StampedNext attrs (runtime.withNames funcAddr) funcAddr := by
    unfold HasNewVersion StampedNext
    rw [hasTarget_iff computed]
    exact Iff.rfl
  have active := active_generated_iff facts slotsThere nativeThere outcome taryThere
  have word : Active result.table funcAddr ∧
      result.table.load64 funcAddr % 2 ^ 32 = runtime.nextStamp ↔
        LeftActiveNext attrs (runtime.withNames funcAddr) funcAddr ∧
          StampedNext attrs (runtime.withNames funcAddr) funcAddr := by
    rw [← left, ← stamped, ← active]
    exact and_congr_right fun isActive =>
      version_generated_iff facts slotsThere nativeThere outcome taryThere isActive
  rw [ActivatedByDlsym, ← word]
  constructor
  · rintro callable ⟨_, _, foundAgain, name, listed, vertex⟩
    exact callable _ _ cfg foundAgain computed
      ⟨name, listed, (mem_callids_iff computed name).mpr vertex⟩
  · rintro activated _ _ other foundAgain otherComputed ⟨name, listed, present⟩
    exact activated ⟨_, _, foundAgain, name, listed,
      (mem_callids_iff otherComputed name).mp present⟩

end Requests

namespace TargetExample

/-- A function that a branch calls through function pointers of its type. -/
def function : Function where
  name := Name.ofPtr 16
  className := none
  methodName := none
  type := some (Name.ofPtr 64)
  returns := []
  dtails := []
  itails := []

/-- A library that exports the function, which a vtable may list. -/
def library (vtable : OrdDict Name (List Name)) : CodeModule :=
  { allocCodeModule with
    baseAddr := 0x500000
    baseAligned := libraryBase_aligned
    sz := pageSize
    sizeAligned := Nat.mod_self pageSize
    icfs := [⟨Name.ofPtr 32, .normalCall (some (Name.ofPtr 64))⟩]
    functions := [function]
    funcsyms := [⟨Name.ofPtr 16, 0⟩]
    icfsyms := [⟨Name.ofPtr 32, 0⟩]
    vtable := vtable
    definedCtors := (∅ : KeySet Name).insertNew (Name.ofPtr 80) ()
    dynfuncs := link ∅ 0 (Name.ofPtr 16)
    instrumented := true }

/-- The process has loaded the library. -/
def runtime (vtable : OrdDict Name (List Name)) : Runtime :=
  loadElf (library vtable) Runtime.boot

/-- The vtable of a class whose constructor is defined. -/
def classVtable : OrdDict Name (List Name) :=
  (∅ : OrdDict Name (List Name)).insertNew (Name.ofPtr 80) [Name.ofPtr 16]

/-- The one function symbol and the one branch are in their places. -/
theorem places (vtable : OrdDict Name (List Name)) :
    (∀ target : TarySymbol (runtime vtable).modules,
      target.addr = 0x500000 ∧ target.sym.offset = 0) ∧
    ∀ branch : Branch (runtime vtable).modules,
      branch.sym = ⟨Name.ofPtr 32, bidSlotStart⟩ := by
  constructor
  · rintro ⟨codeModule, loaded, kind, sym, listed⟩
    cases List.mem_singleton.mp loaded
    cases kind with
    | function =>
        cases List.mem_singleton.mp listed
        exact ⟨rfl, rfl⟩
    | directReturn => cases listed
    | indirectReturn => cases listed
  · rintro ⟨codeModule, loaded, sym, listed⟩
    cases List.mem_singleton.mp loaded
    exact List.mem_singleton.mp listed

theorem slotsApart_runtime (vtable : OrdDict Name (List Name)) :
    SlotsApart (runtime vtable).modules where
  taryAligned target := by rw [((places vtable).1 target).2]
  baryAligned branch := by
    rw [(places vtable).2 branch]
    decide
  barySeparate first second _ := by
    rw [(places vtable).2 first, (places vtable).2 second]
  apart branch target := by
    rw [(places vtable).2 branch, ((places vtable).1 target).1]
    decide

theorem nativeApart_runtime (vtable : OrdDict Name (List Name)) :
    NativeApart (runtime vtable).modules := by
  apply nativeApart_of_instrumented
  intro codeModule loaded
  cases List.mem_singleton.mp loaded
  rfl

theorem taryWord_runtime (vtable : OrdDict Name (List Name)) :
    TaryWord (runtime vtable).modules 0x500000 := by
  refine ⟨by decide, fun branch => ?_⟩
  rw [(places vtable).2 branch]
  decide

/-- What a request for the function returns: its word, and whether it has an id. -/
def observe (vtable : OrdDict Name (List Name)) : Rt (Bool × Nat) := do
  let cfg ← computeCfg 0 ((runtime vtable).withNames 0x500000)
  let result ← takeAddrAndGenCfg 0 0x500000 (runtime vtable)
  return (decide (markFunc (Name.ofPtr 16) ∈ cfg.tables.callids),
    result.table.load64 0x500000)

end TargetExample

open TargetExample in
/-- A virtual method that waits for a constructor stays inactive. -/
theorem dlsym_inactive :
    ¬ ∀ (attrs : UInt8) (funcAddr : Nat) (runtime result : Runtime),
      SlotsApart runtime.modules → NativeApart runtime.modules →
        TaryWord runtime.modules funcAddr →
          takeAddrAndGenCfg attrs funcAddr runtime = .ok result →
            DlsymCallable attrs funcAddr runtime result := by
  intro callable
  have observed : (observe classVtable).toOption = some (true, 2) := by
    decide +kernel
  obtain ⟨cfg, computed, observed⟩ := bind_eq_ok.mp (toOption_eq_some.mp observed)
  obtain ⟨result, returned, stored⟩ := bind_eq_ok.mp observed
  have word := Prod.ext_iff.mp (Except.ok.inj stored)
  have active := callable 0 0x500000 (runtime classVtable) result
    (slotsApart_runtime _) (nativeApart_runtime _) (taryWord_runtime _) returned
    _ _ cfg rfl computed ⟨Name.ofPtr 16, by decide, of_decide_eq_true word.1⟩
  have wordIs : result.table.load64 0x500000 = 2 := word.2
  rw [Active, wordIs] at active
  exact absurd active.1 (by decide)

open TargetExample in
/-- The criterion at a plain function. -/
theorem dlsymCallable_iff_plain :
    ∃ result, takeAddrAndGenCfg 0 0x500000 (runtime ∅) = .ok result ∧
      (DlsymCallable 0 0x500000 (runtime ∅) result ↔
        ActivatedByDlsym 0 0x500000 (runtime ∅)) := by
  have returns : (takeAddrAndGenCfg 0 0x500000 (runtime ∅)).toOption.isSome = true := by
    decide +kernel
  obtain ⟨result, returned⟩ := Option.isSome_iff_exists.mp returns
  have returned := toOption_eq_some.mp returned
  exact ⟨result, returned, dlsymCallable_iff (slotsApart_runtime ∅)
    (nativeApart_runtime ∅) (taryWord_runtime ∅) returned⟩

end Mcfi
