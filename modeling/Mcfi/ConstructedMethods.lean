import Mcfi.TakenAddresses

namespace Mcfi

open LinkMap ByteMem

/-!
# Constructing an object activates its methods

`patch_entry` of a constructor activates the recorded entries of the methods of
its class, and drops the record.  A generation records an entry under the
functions taken in code or under the methods, never under both, so a method whose
address is also taken in code is not found where `patch_entry` looks.
-/

/-- A constructor runs for the first time, and a method of its class is there. -/
def Constructs (before : Tracked) (call : Call) (_ : Tracked) (addr : Nat) :
    Prop :=
  ∃ patchpoint codeModule className names, call = .patchEntry patchpoint ∧
    findModule before.runtime.modules patchpoint = some codeModule ∧
    ctorMethods codeModule (patchpoint - codeModule.baseAddr) =
      some (className, names) ∧
    ∃ name ∈ names, before.CallEntry name addr

/--
No method of a class that is constructed has an inactive entry that waits for its
address to be taken, unless another of the methods has it as well.
-/
def Call.CoversMethods (before : Tracked) : Call → Prop
  | .patchEntry patchpoint => ∀ codeModule className names,
      findModule before.runtime.modules patchpoint = some codeModule →
        ctorMethods codeModule (patchpoint - codeModule.baseAddr) =
            some (className, names) →
          ∀ name ∈ names, ∀ site, Linked before.runtime.fatsInCode name site →
            Active before.runtime.table site ∨
              site ∈ ctorSites before.runtime codeModule
                (patchpoint - codeModule.baseAddr)
  | _ => True

/-- The runs of calls, with the addresses of the methods constructed. -/
def ConstructionRun (admits : Tracked → Call → Prop) :
    (Nat → Prop) → Tracked → Prop :=
  HistoryRun (TrackedStep admits) Constructs Tracked.boot

/-- The address of a symbol, which is active if nothing lies across its word. -/
def ActiveSymbol (state : Tracked) (addr : Nat) : Prop :=
  (∃ target : TarySymbol state.runtime.modules, target.addr = addr) ∧
    (WordsApart state.runtime.modules addr → Active state.runtime.table addr)

section Runs

variable {before after : Tracked} {call : Call} {addr : Nat}

/-- An active symbol stays one. -/
theorem ActiveSymbol.step (active : ActiveSymbol before addr)
    (tracks : call.Tracks before)
    (returned : call.run before.runtime = .ok after.runtime) :
    ActiveSymbol after addr := by
  obtain ⟨⟨target, rfl⟩, holds⟩ := active
  have keeps := words_tracked tracks returned
  obtain ⟨later, here, _⟩ := keeps.tarySymbol target
  exact ⟨⟨later, here⟩, fun apart => active_tracked tracks returned target apart
    (holds (apart.mono keeps))⟩

/-- When a constructor runs, the methods of its class become active. -/
theorem activeSymbol_constructed (recorded : before.Recorded)
    (tracks : call.Tracks before) (covers : call.CoversMethods before)
    (returned : call.run before.runtime = .ok after.runtime)
    (constructs : Constructs before call after addr) :
    ActiveSymbol after addr := by
  obtain ⟨patchpoint, codeModule, className, names, rfl, located, methods, name,
    listed, entry⟩ := constructs
  obtain ⟨target, rfl, _⟩ := entry.symbol
  have keeps := words_tracked tracks returned
  obtain ⟨later, here, _⟩ := keeps.tarySymbol target
  refine ⟨⟨later, here⟩, fun apart => ?_⟩
  obtain ⟨found, original, sameLocated, _, _, _, same⟩ := patchEntry_ok returned
  rw [located] at sameLocated
  cases sameLocated
  -- a site of the constructor is activated, and no pad is marked there
  have activated : target.addr ∈ ctorSites before.runtime codeModule
      (patchpoint - codeModule.baseAddr) →
        Active after.runtime.table target.addr := by
    intro site
    rw [same]
    refine Active.foldl (fun key member current held => held.congr ?_)
      (active_sites site)
    have elsewhere := tracks codeModule located key member target
    simp [storeByte, Ne.symm elsewhere]
  rcases recorded name target.addr entry (apart.mono keeps) with
    active | inCode | inVmtd
  · exact active_tracked tracks returned target apart active
  · rcases covers codeModule className names located methods name listed
      target.addr inCode with active | site
    · exact active_tracked tracks returned target apart active
    · exact activated site
  · apply activated
    rw [ctorSites, methods]
    exact List.mem_flatMap.mpr ⟨name, listed, mem_targets.mpr inVmtd⟩

/--
In every run whose constructors find their methods recorded as methods, each entry
with a call id of a method that was constructed is active, from then on.
-/
theorem constructed_methods_active
    {history : Nat → Prop} {state : Tracked}
    (run : ConstructionRun
      (fun before call => call.Tracks before ∧ call.CoversMethods before)
      history state)
    (addr : Nat) (constructed : history addr)
    (apart : WordsApart state.runtime.modules addr) :
    Active state.runtime.table addr := by
  have active : ActiveSymbol state addr :=
    HistoryRun.recorded_holds (motive := Tracked.Recorded) ActiveSymbol run
      Tracked.recorded_boot
      (fun recorded step => recorded.step step.admitted.1 step.returned
        step.nextIs)
      (fun recorded step constructs => activeSymbol_constructed recorded
        step.admitted.1 step.admitted.2 step.returned constructs)
      (fun _ step active => active.step step.admitted.1 step.returned)
      addr constructed
  exact active.2 apart

end Runs

section Examples

/-- The calls of a program that never restores a call. -/
def Call.TakesOrConstructs : Call → Prop
  | .load _ => True
  | .generate _ => True
  | .patchAt _ => True
  | .patchEntry _ => True
  | _ => False

/-- A run of constructions goes on with an admitted call that returns. -/
theorem ConstructionRun.next
    {admits : Tracked → Call → Prop} {history : Nat → Prop} {before : Tracked}
    (run : ConstructionRun admits history before) (call : Call)
    {after : Runtime} (admitted : admits before call)
    (returned : call.run before.runtime = .ok after) :
    ConstructionRun admits
      (fun addr => history addr ∨
        Constructs before call (before.next call after) addr)
      (before.next call after) :=
  .call run ⟨admitted, returned, rfl⟩

namespace ConstructorExample

open EnforcedExample

/-- The virtual method of a class. -/
def method : Function :=
  { callee with
    className := some (Name.ofPtr 128)
    methodName := some (Name.ofPtr 144) }

/-- The constructor of the class. -/
def constructor : Function :=
  { callee with
    name := Name.ofPtr 160
    type := none
    returns := [] }

/-- A module with a constructor of a class with one virtual method. -/
def classModule (inCode : KeySet Name) : CodeModule :=
  { moduleAt 0x400000 programBase_aligned [] [] with
    icfs := [⟨Name.ofPtr 32,
      .virtualMethodCall (Name.ofPtr 128) (Name.ofPtr 144)⟩]
    functions := [method, constructor]
    funcsyms := [⟨Name.ofPtr 16, 0⟩, ⟨Name.ofPtr 160, 0x40⟩]
    classes := (∅ : ClassTable).insertNew (Name.ofPtr 128)
      ((∅ : OrdDict Name UInt8).insertNew (Name.ofPtr 144)
        Qualifier.virtual.bit)
    fatsInData := ∅
    fatsInCode := inCode
    funcOrig := (∅ : OrdDict Nat Nat).insertNew 0x40 0x90
    ctor := (∅ : OrdDict Nat Name).insertNew 0x40 (Name.ofPtr 128)
    vtable := (∅ : OrdDict Name (List Name)).insertNew (Name.ofPtr 128)
      [Name.ofPtr 16]
    definedCtors := (∅ : KeySet Name).insertNew (Name.ofPtr 128) () }

/-- The process has loaded the module. -/
def loaded (inCode : KeySet Name) : Runtime :=
  loadElf (classModule inCode) Runtime.boot

/-- The same, tracked from the start. -/
def started (inCode : KeySet Name) : Tracked :=
  Tracked.boot.next (.load (classModule inCode)) (loaded inCode)

/-- The method is taken nowhere but in the vtable. -/
def untaken : KeySet Name := ∅

/-- The address of the method is also taken in code. -/
def taken : KeySet Name := (∅ : KeySet Name).insertNew (Name.ofPtr 16) ()

variable {inCode : KeySet Name}

/-- No other word lies across the one of the method. -/
theorem apart_method : WordsApart (loaded inCode).modules 0x400000 where
  targets := by
    rintro ⟨m, isLoaded, kind, sym, listed⟩ _
    cases List.mem_singleton.mp isLoaded
    cases kind with
    | function =>
        rcases List.mem_cons.mp listed with rfl | inRest
        · exact Or.inl rfl
        · cases List.mem_singleton.mp inRest
          have ordered : 0x400000 + 8 ≤ 0x400000 + 0x40 := by decide
          exact Or.inr (Or.inl ordered)
    | directReturn => cases listed
    | indirectReturn => cases listed
  slots := by
    rintro ⟨m, isLoaded, sym, listed⟩
    cases List.mem_singleton.mp isLoaded
    cases listed
  native := by
    intro m isLoaded isNative
    cases List.mem_singleton.mp isLoaded
    cases isNative

/-- After a generation the constructor is where it was, and finds its class. -/
theorem constructor_generated {middle : Runtime}
    (generates : genCfg 0 (loaded inCode) = .ok middle) :
    ∃ codeModule, findModule middle.modules 0x400040 = some codeModule ∧
      codeModule.baseAddr = 0x400000 ∧ codeModule.flp = ∅ ∧
      ctorMethods codeModule 0x40 = some (Name.ofPtr 128, [Name.ofPtr 16]) := by
  obtain ⟨_, _, outcome⟩ := genCfg_result generates
  rw [outcome.modulesAre]
  refine ⟨_, List.find?_cons_of_pos ?_, rfl, rfl, rfl⟩
  simp [CodeModule.Holds, classModule, moduleAt, pageSize]

/-- A constructor that runs after a generation constructs the method's entry. -/
theorem constructs_method {middle after : Runtime} {cfg : CfgData}
    (computes : computeCfg 0 (loaded inCode) = .ok cfg)
    (generates : genCfg 0 (loaded inCode) = .ok middle)
    (hasId : markFunc (Name.ofPtr 16) ∈ cfg.tables.callids) :
    Constructs ((started inCode).next (.generate 0) middle)
      (.patchEntry 0x400040)
      (((started inCode).next (.generate 0) middle).next
        (.patchEntry 0x400040) after) 0x400000 := by
  obtain ⟨codeModule, located, base, _, methods⟩ :=
    constructor_generated generates
  refine ⟨_, codeModule, Name.ofPtr 128, [Name.ofPtr 16], rfl, located, ?_,
    Name.ofPtr 16, List.mem_singleton.mpr rfl, ?_⟩
  · rw [base]
    exact methods
  · obtain ⟨_, _, outcome⟩ := genCfg_result generates
    refine ⟨?_, cfg.tables, ?_, hasId⟩
    · simp only [Tracked.next]
      rw [outcome.modulesAre]
      exact ⟨_, List.mem_singleton.mpr rfl, rfl, rfl, ⟨Name.ofPtr 16, 0⟩,
        List.mem_cons_self, rfl, rfl⟩
    · simp only [Tracked.next, started, computes]
      rfl

/-- The constructor has no landing pads. -/
theorem tracks_constructor {middle : Runtime}
    (generates : genCfg 0 (loaded inCode) = .ok middle) :
    (Call.patchEntry 0x400040).Tracks
      ((started inCode).next (.generate 0) middle) := by
  obtain ⟨codeModule, located, _, noPads, _⟩ := constructor_generated generates
  intro found sameLocated key listed
  rw [Tracked.next, located] at sameLocated
  cases sameLocated
  rw [noPads] at listed
  cases listed

/-- The words of the module stay where they were. -/
theorem apart_constructed {middle after : Runtime}
    (generates : genCfg 0 (loaded inCode) = .ok middle)
    (patches : patchEntry 0x400040 middle = .ok after) :
    WordsApart after.modules 0x400000 := by
  obtain ⟨_, _, _, _, _, _, _, _, same, _⟩ := patchEntry_cases patches
  have kept : after.modules.map CodeModule.words =
      middle.modules.map CodeModule.words := by
    rw [same]
    exact map_modifyModule _ _ fun _ => rfl
  refine (@apart_method inCode).mono (KeepsView.of_map_eq ?_)
  exact (kept.trans (words_genCfg generates)).symm

end ConstructorExample

open ConstructorExample in
/-- A method whose address is taken in code stays inactive when it is constructed. -/
theorem taken_method_lost :
    ¬ ∀ (history : Nat → Prop) (state : Tracked),
      ConstructionRun (fun _ call => call.TakesOrConstructs) history state →
        ∀ addr, history addr → WordsApart state.runtime.modules addr →
          Active state.runtime.table addr := by
  intro active
  have computed : (do
      let cfg ← computeCfg 0 (loaded taken)
      let middle ← genCfg 0 (loaded taken)
      let after ← patchEntry 0x400040 middle
      return (decide (markFunc (Name.ofPtr 16) ∈ cfg.tables.callids),
        after.table.load64 0x400000 % 2)).toOption = some (true, 0) := by
    decide +kernel
  rw [toOption_eq_some, bind_eq_ok] at computed
  obtain ⟨cfg, computes, computed⟩ := computed
  rw [bind_eq_ok] at computed
  obtain ⟨middle, generates, computed⟩ := computed
  rw [bind_eq_ok] at computed
  obtain ⟨after, patches, computed⟩ := computed
  simp only [pure_eq_ok, Prod.mk.injEq, decide_eq_true_eq] at computed
  obtain ⟨hasId, even⟩ := computed
  have loadedRun : ConstructionRun (fun _ call => call.TakesOrConstructs) _
      (started taken) :=
    ConstructionRun.next .start (.load (classModule taken)) trivial rfl
  have run := (loadedRun.next (.generate 0) trivial generates).next
    (.patchEntry 0x400040) trivial patches
  have odd : Active after.table 0x400000 :=
    active _ _ run 0x400000
      (Or.inr (constructs_method computes generates hasId))
      (apart_constructed generates patches)
  rw [Active, even] at odd
  cases odd

open ConstructorExample in
/-- A method that is in the vtable alone is activated by the constructor. -/
theorem constructed_methods_active_vtable :
    ∃ middle after, genCfg 0 (loaded untaken) = .ok middle ∧
      ¬ Active middle.table 0x400000 ∧
        patchEntry 0x400040 middle = .ok after ∧
          Active after.table 0x400000 := by
  have computed : (do
      let cfg ← computeCfg 0 (loaded untaken)
      let middle ← genCfg 0 (loaded untaken)
      let _ ← patchEntry 0x400040 middle
      return (decide (markFunc (Name.ofPtr 16) ∈ cfg.tables.callids),
        middle.table.load64 0x400000 % 2,
        middle.fatsInCode.targets (Name.ofPtr 16))).toOption =
          some (true, 0, []) := by
    decide +kernel
  rw [toOption_eq_some, bind_eq_ok] at computed
  obtain ⟨cfg, computes, computed⟩ := computed
  rw [bind_eq_ok] at computed
  obtain ⟨middle, generates, computed⟩ := computed
  rw [bind_eq_ok] at computed
  obtain ⟨after, patches, computed⟩ := computed
  simp only [pure_eq_ok, Prod.mk.injEq, decide_eq_true_eq] at computed
  obtain ⟨hasId, even, notInCode⟩ := computed
  refine ⟨middle, after, generates, (by rw [Active, even]; decide), patches, ?_⟩
  have loadedRun : ConstructionRun
      (fun before call => call.Tracks before ∧ call.CoversMethods before) _
      (started untaken) :=
    ConstructionRun.next .start (.load (classModule untaken))
      ⟨trivial, trivial⟩ rfl
  have tracks := tracks_constructor generates
  have covers : (Call.patchEntry 0x400040).CoversMethods
      ((started untaken).next (.generate 0) middle) := by
    obtain ⟨known, located, base, _, methods⟩ := constructor_generated generates
    intro codeModule className names sameLocated found name listed site linked
    rw [Tracked.next, located] at sameLocated
    cases sameLocated
    rw [base, methods] at found
    cases found
    cases List.mem_singleton.mp listed
    have inCode := mem_targets.mpr linked
    rw [Tracked.next, notInCode] at inCode
    cases inCode
  have run := (loadedRun.next (.generate 0) ⟨trivial, trivial⟩ generates).next
    (.patchEntry 0x400040) ⟨tracks, covers⟩ patches
  exact constructed_methods_active run 0x400000
    (Or.inr (constructs_method computes generates hasId))
    (apart_constructed generates patches)

end Examples

end Mcfi
