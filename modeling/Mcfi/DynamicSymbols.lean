import Mcfi.AddressRequests

namespace Mcfi

open LinkMap

/-!
# Dynamic symbols and `dlsym`

The dynamic linker resolves a name to any global or weak symbol that is a function, a
data object or a thread-local variable.  The runtime enters the global functions alone
into `dynfuncs`, under all their aliases, and is asked about each resolved address.
-/

/-- `ELF64_ST_BIND`. -/
inductive SymbolBinding where
  | stbLocal
  | stbGlobal
  | stbWeak
  | stbGnuUnique
  deriving DecidableEq

/-- `ELF64_ST_TYPE`. -/
inductive SymbolType where
  | sttNotype
  | sttObject
  | sttFunc
  | sttSection
  | sttFile
  | sttCommon
  | sttTls
  deriving DecidableEq

/-- An entry of `.dynsym`. -/
structure DynamicSymbol where
  name : Name
  binding : SymbolBinding
  type : SymbolType
  shndx : Nat
  value : Nat
  deriving DecidableEq

/-- `OK_TYPES`. -/
def SymbolType.ok : SymbolType → Bool
  | .sttNotype => true
  | .sttObject => true
  | .sttFunc => true
  | .sttCommon => true
  | .sttTls => true
  | .sttSection => false
  | .sttFile => false

/-- `OK_BINDS`. -/
def SymbolBinding.ok : SymbolBinding → Bool
  | .stbGlobal => true
  | .stbWeak => true
  | .stbGnuUnique => true
  | .stbLocal => false

section Loading

/-- The symbols whose functions may have their address taken at run time. -/
def DynamicSymbol.Exported (sym : DynamicSymbol) : Prop :=
  sym.binding = .stbGlobal ∧ sym.type = .sttFunc ∧ sym.shndx ≠ 0

instance (sym : DynamicSymbol) : Decidable sym.Exported :=
  inferInstanceAs (Decidable (_ ∧ _))

/--
The loop over `.dynsym` of `load_mcfi_metadata`.  The base address of the module is
the one it has at that point: zero, or `X64ABIBASE` for an executable.
-/
def addDynfunc (baseAddr : Nat) (aliasesTc : LinkMap Name Name)
    (dynfuncs : LinkMap Nat Name) (sym : DynamicSymbol) : LinkMap Nat Name :=
  if sym.Exported then
    match dictFind aliasesTc sym.name with
    | none => gAddDirectedEdge dynfuncs (sym.value - baseAddr) sym.name
    | some group => group.keys.foldl (fun dynfuncs other =>
        gAddDirectedEdge dynfuncs (sym.value - baseAddr) other) dynfuncs
  else
    dynfuncs

/-- The `dynfuncs` table that `load_mcfi_metadata` builds. -/
def loadDynfuncs (baseAddr : Nat) (aliases : LinkMap Name Name)
    (syms : List DynamicSymbol) : Rt (LinkMap Nat Name) := do
  let aliasesTc ← gTransitiveClosure aliases
  return syms.foldl (addDynfunc baseAddr aliasesTc) ∅

end Loading

section Resolving

/-- `struct dso`, as far as symbols are looked up in it. -/
structure Dso where
  base : Nat
  isGlobal : Bool
  tlsId : Nat
  syms : List DynamicSymbol

/-- `gnu_lookup` and `sysv_lookup`. -/
def Dso.lookup (dso : Dso) (name : Name) : Option DynamicSymbol :=
  dso.syms.find? fun sym => sym.name = name

/-- `find_sym` without `need_def`, from the definition found so far. -/
def findSym (name : Name) (found : Option (DynamicSymbol × Dso)) :
    List Dso → Option (DynamicSymbol × Dso)
  | [] => found
  | dso :: rest =>
      match if dso.isGlobal then dso.lookup name else none with
      | none => findSym name found rest
      | some sym =>
          if sym.shndx = 0 && sym.type = .sttTls then
            findSym name found rest
          else if sym.value = 0 && sym.type ≠ .sttTls then
            findSym name found rest
          else if !sym.type.ok || !sym.binding.ok then
            findSym name found rest
          else if found.isSome && sym.binding = .stbWeak then
            findSym name found rest
          else if sym.binding = .stbGlobal then
            some (sym, dso)
          else
            findSym name (some (sym, dso)) rest

/-- What `dlsym` is given besides the name. -/
inductive Handle where
  /-- The program, `RTLD_DEFAULT` or `RTLD_NEXT`: all objects from one on. -/
  | chain (objects : List Dso)
  /-- A library and its dependencies. -/
  | library (dso : Dso) (deps : List Dso)

/--
The address of a symbol in one library.  Where a thread-local variable lies is up to
`__tls_get_addr`.
-/
def Dso.resolve (tlsGetAddr : Nat → Nat → Nat) (name : Name) (dso : Dso) :
    Option Nat :=
  match dso.lookup name with
  | none => none
  | some sym =>
      if sym.type = .sttTls then
        some (tlsGetAddr dso.tlsId sym.value)
      else if sym.value ≠ 0 && sym.type.ok then
        some (dso.base + sym.value)
      else
        none

/-- `do_dlsym`, up to the call of the runtime. -/
def doDlsym (tlsGetAddr : Nat → Nat → Nat) (name : Name) : Handle → Option Nat
  | .chain objects =>
      (findSym name none objects).map fun found =>
        if found.1.type = .sttTls then
          tlsGetAddr found.2.tlsId found.1.value
        else
          found.2.base + found.1.value
  | .library dso deps => (dso :: deps).findSome? (Dso.resolve tlsGetAddr name)

/-- `dlsym`: the runtime is asked about the address of a symbol that is found. -/
def dlsym (attrs : UInt8) (tlsGetAddr : Nat → Nat → Nat) (handle : Handle)
    (name : Name) (runtime : Runtime) : Rt Runtime :=
  match doDlsym tlsGetAddr name handle with
  | none => return runtime
  | some v => takeAddrAndGenCfg attrs v runtime

/-- The same symbol, requested several times. -/
def dlsymTimes (attrs : UInt8) (tlsGetAddr : Nat → Nat → Nat) (handle : Handle)
    (name : Name) : Nat → Runtime → Rt Runtime
  | 0, runtime => return runtime
  | times + 1, runtime => do
      let after ← dlsym attrs tlsGetAddr handle name runtime
      dlsymTimes attrs tlsGetAddr handle name times after

end Resolving

section Tables

variable {baseAddr : Nat} {aliases aliasesTc : LinkMap Name Name}
  {syms : List DynamicSymbol} {dynfuncs : LinkMap Nat Name}

/-- Entering several names at an address. -/
private theorem linked_foldl_names {names : List Name} {addr query : Nat}
    {start : LinkMap Nat Name} {name : Name} :
    Linked (names.foldl (fun dynfuncs other =>
        gAddDirectedEdge dynfuncs addr other) start) query name ↔
      Linked start query name ∨ query = addr ∧ name ∈ names := by
  induction names generalizing start with
  | nil => simp
  | cons head rest inductionHypothesis =>
      rw [List.foldl_cons, inductionHypothesis, gAddDirectedEdge, linked_link,
        List.mem_cons]
      tauto

/-- The names under which a symbol is entered. -/
def DynamicSymbol.EnteredAs (aliasesTc : LinkMap Name Name) (sym : DynamicSymbol)
    (name : Name) : Prop :=
  Linked aliasesTc sym.name name ∨ sym.name ∉ aliasesTc ∧ name = sym.name

/-- Each exported symbol is entered at its address, and no other one is. -/
theorem linked_addDynfunc {sym : DynamicSymbol} {offset : Nat} {name : Name} :
    Linked (addDynfunc baseAddr aliasesTc dynfuncs sym) offset name ↔
      Linked dynfuncs offset name ∨ sym.Exported ∧ offset = sym.value - baseAddr ∧
        sym.EnteredAs aliasesTc name := by
  unfold addDynfunc DynamicSymbol.EnteredAs
  split
  next exported =>
    cases found : dictFind aliasesTc sym.name with
    | none =>
        have absent : sym.name ∉ aliasesTc := OrdDict.find_eq_none.mp found
        have unlinked : ¬ Linked aliasesTc sym.name name :=
          fun linked => absent (mem_of_linked linked)
        simp only [gAddDirectedEdge, linked_link, exported, unlinked, absent]
        tauto
    | some group =>
        have present : sym.name ∈ aliasesTc := OrdDict.mem_of_find found
        have linkedIff : Linked aliasesTc sym.name name ↔ name ∈ group.keys := by
          rw [OrdDict.mem_keys]
          constructor
          · rintro ⟨others, hit, member⟩
            rw [dictFind] at found
            rw [found] at hit
            cases hit
            exact member
          · exact fun member => ⟨group, found, member⟩
        simp only [linked_foldl_names, exported, linkedIff, present]
        tauto
  next hidden => simp [hidden]

/-- A key of an alias closure is in its own group. -/
private theorem linked_self_of_mem (undirected : Undirected aliases)
    (runs : gTransitiveClosure aliases = .ok aliasesTc) {name : Name}
    (present : name ∈ aliasesTc) : Linked aliasesTc name name := by
  obtain ⟨components, componentsRun, isComponents⟩ := gGetLcc_ok undirected
  rw [gTransitiveClosure, componentsRun] at runs
  cases runs
  obtain ⟨component, found⟩ := OrdDict.exists_find_of_mem present
  exact ⟨component, found,
    ((find_closureOfComponents isComponents.disjoint).mp found).2⟩

/-- A symbol is entered under its name and those of its aliases. -/
theorem DynamicSymbol.enteredAs_iff (undirected : Undirected aliases)
    (runs : gTransitiveClosure aliases = .ok aliasesTc) {sym : DynamicSymbol}
    {name : Name} :
    sym.EnteredAs aliasesTc name ↔
      name = sym.name ∨ SameComponent aliases sym.name name := by
  obtain ⟨closure, closureRuns, linkedIff⟩ := gTransitiveClosure_ok undirected
  rw [runs] at closureRuns
  cases closureRuns
  unfold DynamicSymbol.EnteredAs
  rw [linkedIff]
  constructor
  · rintro (same | ⟨_, own⟩)
    · exact .inr same
    · exact .inl own
  · rintro (rfl | same)
    · by_cases present : sym.name ∈ aliasesTc
      · exact .inl ((linkedIff _ _).mp (linked_self_of_mem undirected runs present))
      · exact .inr ⟨present, rfl⟩
    · exact .inl same

/-- What `load_mcfi_metadata` enters for the symbols of a module. -/
theorem linked_loadDynfuncs (undirected : Undirected aliases)
    (loaded : loadDynfuncs baseAddr aliases syms = .ok dynfuncs) {offset : Nat}
    {name : Name} :
    Linked dynfuncs offset name ↔
      ∃ sym ∈ syms, sym.Exported ∧ offset = sym.value - baseAddr ∧
        (name = sym.name ∨ SameComponent aliases sym.name name) := by
  obtain ⟨aliasesTc, runs, stored⟩ := bind_eq_ok.mp loaded
  cases stored
  have fold : ∀ (syms : List DynamicSymbol) (start : LinkMap Nat Name),
      Linked (syms.foldl (addDynfunc baseAddr aliasesTc) start) offset name ↔
        Linked start offset name ∨ ∃ sym ∈ syms, sym.Exported ∧
          offset = sym.value - baseAddr ∧ sym.EnteredAs aliasesTc name := by
    intro syms
    induction syms with
    | nil => simp
    | cons head rest inductionHypothesis =>
        intro start
        rw [List.foldl_cons, inductionHypothesis, linked_addDynfunc,
          List.exists_mem_cons_iff, or_assoc]
  rw [fold]
  simp only [not_linked_empty, false_or,
    DynamicSymbol.enteredAs_iff undirected runs]

/-- Every address in the table has a name. -/
theorem populated_loadDynfuncs
    (loaded : loadDynfuncs baseAddr aliases syms = .ok dynfuncs) :
    Populated dynfuncs := by
  obtain ⟨aliasesTc, _, stored⟩ := bind_eq_ok.mp loaded
  cases stored
  have names : ∀ (names : List Name) (addr : Nat) (start : LinkMap Nat Name),
      Populated start → Populated (names.foldl (fun dynfuncs other =>
        gAddDirectedEdge dynfuncs addr other) start) := by
    intro names addr
    induction names with
    | nil => exact fun _ populated => populated
    | cons head rest inductionHypothesis =>
        exact fun start populated => inductionHypothesis _ (populated.link addr head)
  have fold : ∀ (syms : List DynamicSymbol) (start : LinkMap Nat Name),
      Populated start → Populated (syms.foldl (addDynfunc baseAddr aliasesTc) start) := by
    intro syms
    induction syms with
    | nil => exact fun _ populated => populated
    | cons head rest inductionHypothesis =>
        intro start populated
        apply inductionHypothesis
        unfold addDynfunc
        split
        next =>
          split
          next => exact populated.link _ _
          next group _ => exact names group.keys _ start populated
        next => exact populated
  exact fold syms ∅ populated_empty

/-- The addresses in the table are those of the exported symbols. -/
theorem mem_loadDynfuncs (undirected : Undirected aliases)
    (loaded : loadDynfuncs baseAddr aliases syms = .ok dynfuncs) {offset : Nat} :
    offset ∈ dynfuncs ↔
      ∃ sym ∈ syms, sym.Exported ∧ offset = sym.value - baseAddr := by
  constructor
  · intro present
    obtain ⟨name, linked⟩ := populated_loadDynfuncs loaded offset present
    obtain ⟨sym, listed, exported, here, _⟩ :=
      (linked_loadDynfuncs undirected loaded).mp linked
    exact ⟨sym, listed, exported, here⟩
  · rintro ⟨sym, listed, exported, here⟩
    exact mem_of_linked ((linked_loadDynfuncs undirected loaded).mpr
      ⟨sym, listed, exported, here, .inl rfl⟩)

end Tables

section Requests

variable {attrs : UInt8} {tlsGetAddr : Nat → Nat → Nat} {handle : Handle}
  {name : Name} {runtime : Runtime}

/-- The modules have the tables that `load_mcfi_metadata` builds. -/
def LoadedTables (runtime : Runtime) : Prop :=
  ∀ codeModule ∈ runtime.modules, ∃ baseAddr syms,
    loadDynfuncs baseAddr codeModule.aliases syms = .ok codeModule.dynfuncs

/--
The process survives the requests for a symbol, and the first one alone changes the
taken names.
-/
structure SurvivesDlsym (attrs : UInt8) (tlsGetAddr : Nat → Nat → Nat)
    (handle : Handle) (name : Name) (times : Nat) (runtime : Runtime) : Prop where
  returns : ∃ after, dlsymTimes attrs tlsGetAddr handle name times runtime = .ok after
  settled : ∀ first after, 1 ≤ times →
    dlsymTimes attrs tlsGetAddr handle name 1 runtime = .ok first →
      dlsymTimes attrs tlsGetAddr handle name times runtime = .ok after →
        after.modules.map CodeModule.fats = first.modules.map CodeModule.fats

/-- One request is one call of the runtime. -/
theorem dlsymTimes_succ {v times : Nat} {after : Runtime}
    (resolved : doDlsym tlsGetAddr name handle = some v) :
    dlsymTimes attrs tlsGetAddr handle name (times + 1) runtime = .ok after ↔
      ∃ first, takeAddrAndGenCfg attrs v runtime = .ok first ∧
        dlsymTimes attrs tlsGetAddr handle name times first = .ok after := by
  rw [dlsymTimes, bind_eq_ok]
  simp only [dlsym, resolved]

/-- The search does not see that a generation has run. -/
theorem dynfuncNames_generated (modules : List CodeModule) (funcAddr : Nat) :
    dynfuncNames (modules.map fun m => { m with cfggened := true }) funcAddr =
      (dynfuncNames modules funcAddr).map fun found =>
        ({ found.1 with cfggened := true }, found.2) := by
  induction modules generalizing funcAddr with
  | nil => rfl
  | cons head rest inductionHypothesis =>
      rw [List.map_cons, dynfuncNames, dynfuncNames]
      simp only [inductionHypothesis]
      have sameHolds : CodeModule.Holds { head with cfggened := true } funcAddr ↔
          head.Holds funcAddr := Iff.rfl
      simp only [sameHolds]
      split
      next =>
        cases dictFind head.dynfuncs (funcAddr - head.baseAddr) <;> rfl
      next => rfl

/-- After a request its names are taken, so that a second one does not return. -/
theorem takeAddrAndGenCfg_twice {v : Nat} {first : Runtime}
    (loaded : LoadedTables runtime)
    (returned : takeAddrAndGenCfg attrs v runtime = .ok first) :
    ¬ ∃ second, takeAddrAndGenCfg attrs v first = .ok second := by
  rw [takeAddrAndGenCfg_returns]
  intro again
  obtain ⟨isFound, _, generated⟩ := takeAddrAndGenCfg_eq_ok.mp returned
  obtain ⟨⟨codeModule, names⟩, found⟩ := Option.isSome_iff_exists.mp isFound
  obtain ⟨isLoaded, offset, hit⟩ := dynfuncNames_mem found
  obtain ⟨baseAddr, syms, tableIs⟩ := loaded codeModule isLoaded
  obtain ⟨other, others, otherHit, taken⟩ :=
    populated_loadDynfuncs tableIs offset (OrdDict.mem_of_find hit)
  rw [hit] at otherHit
  cases otherHit
  obtain ⟨_, _, outcome⟩ := genCfg_result generated
  have foundAgain : dynfuncNames first.modules v =
      some ({ codeModule with
        fats := addNames codeModule.fats names, cfggened := true }, names) := by
    rw [outcome.modulesAre, dynfuncNames_generated, Runtime.withNames,
      dynfuncNames_withDynfuncNames found]
    rfl
  exact again.fresh _ _ foundAgain other taken (mem_addNames.mpr (.inl taken))

/--
The process survives the requests for a symbol exactly when there is none, or a single
one for an address that is in the tables and whose names are not taken yet, at a time
when the CFG can be generated.
-/
theorem survivesDlsym_iff {v : Nat} (loaded : LoadedTables runtime)
    (resolved : doDlsym tlsGetAddr name handle = some v) (times : Nat) :
    SurvivesDlsym attrs tlsGetAddr handle name times runtime ↔
      times = 0 ∨ times = 1 ∧ Requestable runtime v := by
  match times with
  | 0 =>
      refine iff_of_true ⟨⟨runtime, rfl⟩, fun _ _ some => ?_⟩ (.inl rfl)
      exact absurd some (by decide)
  | 1 =>
      have single : (∃ after, dlsymTimes attrs tlsGetAddr handle name 1 runtime =
          .ok after) ↔ Requestable runtime v := by
        rw [← takeAddrAndGenCfg_returns attrs]
        constructor
        · rintro ⟨after, runs⟩
          obtain ⟨first, firstRuns, _⟩ := (dlsymTimes_succ resolved).mp runs
          exact ⟨first, firstRuns⟩
        · rintro ⟨first, firstRuns⟩
          exact ⟨first, (dlsymTimes_succ resolved).mpr ⟨first, firstRuns, rfl⟩⟩
      constructor
      · exact fun survives => .inr ⟨rfl, single.mp survives.returns⟩
      · rintro (never | ⟨_, requestable⟩)
        · cases never
        · refine ⟨single.mpr requestable, fun first after _ firstRuns runs => ?_⟩
          rw [firstRuns] at runs
          cases runs
          rfl
  | times + 2 =>
      constructor
      · rintro ⟨⟨after, returns⟩, _⟩
        obtain ⟨first, firstRuns, returns⟩ := (dlsymTimes_succ resolved).mp returns
        obtain ⟨second, secondRuns, _⟩ := (dlsymTimes_succ resolved).mp returns
        exact absurd ⟨second, secondRuns⟩ (takeAddrAndGenCfg_twice loaded firstRuns)
      · rintro (never | ⟨never, _⟩)
        · cases never
        · cases never

end Requests

namespace DlsymExample

/-- The symbols of a library: functions, a data object and a thread-local variable. -/
def syms : List DynamicSymbol :=
  [⟨Name.ofPtr 16, .stbGlobal, .sttFunc, 1, 8⟩,
    ⟨Name.ofPtr 32, .stbWeak, .sttFunc, 1, 16⟩,
    ⟨Name.ofPtr 48, .stbGlobal, .sttObject, 2, 24⟩,
    ⟨Name.ofPtr 64, .stbGlobal, .sttTls, 3, 32⟩,
    ⟨Name.ofPtr 80, .stbGlobal, .sttFunc, 1, 40⟩]

/-- The library, of which the program takes the address of the last function. -/
def library : CodeModule :=
  { allocCodeModule with
    baseAddr := 0x500000
    baseAligned := libraryBase_aligned
    sz := pageSize
    sizeAligned := Nat.mod_self pageSize
    fatsInData := (∅ : KeySet Name).insertNew (Name.ofPtr 80) ()
    dynfuncs := syms.foldl (addDynfunc 0 ∅) ∅
    instrumented := true }

/-- The process has loaded the library. -/
def runtime : Runtime :=
  loadElf library Runtime.boot

/-- The handle of the library. -/
def handle : Handle :=
  .library ⟨0x500000, true, 1, syms⟩ []

/-- Thread-local variables lie outside the modules. -/
def tlsGetAddr (_ offset : Nat) : Nat :=
  0x600000 + offset

/--
The requests that end the process: a weak function, a data object, a thread-local
variable, a function that is taken already, and a function for the second time.
-/
def killing : List (Name × Nat) :=
  [(Name.ofPtr 32, 1), (Name.ofPtr 48, 1), (Name.ofPtr 64, 1), (Name.ofPtr 80, 1),
    (Name.ofPtr 16, 2)]

/-- The table of the library is the one that its symbols give. -/
theorem loadedTables_runtime : LoadedTables runtime := by
  intro codeModule loaded
  cases List.mem_singleton.mp loaded
  exact ⟨0, syms, rfl⟩

end DlsymExample

open DlsymExample in
/-- Each of these requests resolves, and ends a process that can generate its CFG. -/
theorem dlsym_kills :
    ¬ ∃ request ∈ killing, ∀ (attrs : UInt8) (runtime : Runtime) (v : Nat),
      LoadedTables runtime → (∃ result, genCfg attrs runtime = .ok result) →
        doDlsym tlsGetAddr request.1 handle = some v →
          SurvivesDlsym attrs tlsGetAddr handle request.1 request.2 runtime := by
  rintro ⟨request, listed, survives⟩
  have generates : (genCfg 0 runtime).toOption.isSome = true := by
    decide +kernel
  have resolves : ∀ request ∈ killing,
      (doDlsym tlsGetAddr request.1 handle).isSome = true := by
    decide +kernel
  have ends : ∀ request ∈ killing,
      (dlsymTimes 0 tlsGetAddr handle request.1 request.2 runtime).toOption.isSome =
        false := by
    decide +kernel
  obtain ⟨result, generated⟩ := Option.isSome_iff_exists.mp generates
  obtain ⟨v, resolved⟩ := Option.isSome_iff_exists.mp (resolves request listed)
  obtain ⟨after, returned⟩ := (survives 0 runtime v loadedTables_runtime
    ⟨result, toOption_eq_some.mp generated⟩ resolved).returns
  have never := ends request listed
  rw [returned] at never
  cases never

open DlsymExample in
/-- The criterion at a function that is requested once. -/
theorem survivesDlsym_iff_once :
    doDlsym tlsGetAddr (Name.ofPtr 16) handle = some 0x500008 ∧
      (SurvivesDlsym 0 tlsGetAddr handle (Name.ofPtr 16) 1 runtime ↔
        1 = 0 ∨ 1 = 1 ∧ Requestable runtime 0x500008) :=
  ⟨rfl, survivesDlsym_iff loadedTables_runtime rfl 1⟩

end Mcfi
