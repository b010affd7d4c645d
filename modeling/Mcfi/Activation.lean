import Mcfi.EnforcedCfg
import Mcfi.RuntimeCalls
import Mcfi.Sites

namespace Mcfi

open LinkMap ByteMem

/-!
# Activation is monotone

A target is valid when bit 0 of its Tary word is set.  Patching only sets such
bits, and a generation computes them anew from the words it replaces, so that
bit 0 of a word stays set unless another word or a landing pad lies across it.
-/

/-- A word with bit 0 set: the target there has been activated. -/
def Active (table : ByteMem) (addr : Nat) : Prop :=
  table.load64 addr % 2 = 1

section Bits

variable {table : ByteMem} {query : Nat}

/-- Bit 0 of a word is bit 0 of its first byte. -/
theorem active_iff (table : ByteMem) (addr : Nat) :
    Active table addr ↔ (table addr).toNat % 2 = 1 := by
  have low := load64_mod table addr
  unfold Active
  omega

/-- The byte at its address decides whether a word is active. -/
theorem Active.congr {other : ByteMem} (active : Active table query)
    (same : other query = table query) : Active other query := by
  rw [active_iff, same, ← active_iff]
  exact active

/-- Setting bit 0 of a word changes its first byte only. -/
theorem setBit0_other (table : ByteMem) {addr : Nat}
    (different : query ≠ addr) : setBit0 table addr query = table query := by
  by_cases inside : addr ≤ query ∧ query < addr + 8
  · obtain ⟨k, rfl⟩ := Nat.exists_eq_add_of_le inside.1
    have below : k < 8 := by omega
    have split : (256 : Nat) ^ k = 2 * (128 * 256 ^ (k - 1)) := by
      rw [← Nat.mul_assoc, ← Nat.pow_succ', Nat.succ_eq_add_one,
        Nat.sub_add_cancel (by omega)]
    have sameHalf : ((table.load64 addr ||| 1) : Nat) / 2 =
        table.load64 addr / 2 := by
      rw [or_one]
      omega
    apply UInt8.toNat_inj.mp
    rw [setBit0, store64_byte table addr _ below, split,
      ← Nat.div_div_eq_div_mul, sameHalf, Nat.div_div_eq_div_mul, ← split]
    exact (byte_eq_load table addr 8 below).symm
  · exact store64_other table (by omega)

/-- Setting bit 0 of a word activates it. -/
theorem active_setBit0 (table : ByteMem) (addr : Nat) :
    Active (setBit0 table addr) addr := by
  rw [Active, load64_setBit0, or_one]
  omega

/-- Setting bit 0 of any word keeps the active ones. -/
theorem Active.setBit0 (active : Active table query) (addr : Nat) :
    Active (Mcfi.setBit0 table addr) query := by
  by_cases here : query = addr
  · rw [here]
    exact active_setBit0 table addr
  · exact active.congr (setBit0_other table here)

/-- Activating a site makes it active. -/
theorem active_activate (table : ByteMem) (addr : Nat) :
    Active (activate table addr) addr := by
  unfold activate
  split
  next => exact active_setBit0 table addr
  next notEven => exact Nat.mod_two_ne_zero.mp notEven

/-- Activating a site keeps the active ones. -/
theorem Active.activate (active : Active table query) (addr : Nat) :
    Active (Mcfi.activate table addr) query := by
  unfold Mcfi.activate
  split
  next => exact active.setBit0 addr
  next => exact active

/-- What each operation of a list keeps active, the list keeps active. -/
theorem Active.foldl
    {α : Type} {change : ByteMem → α → ByteMem} {items : List α}
    (keeps : ∀ item ∈ items, ∀ current,
      Active current query → Active (change current item) query)
    (active : Active table query) :
    Active (items.foldl change table) query := by
  induction items generalizing table with
  | nil => exact active
  | cons item rest inductionHypothesis =>
      exact inductionHypothesis
        (fun later listed => keeps later (List.mem_cons_of_mem _ listed))
        (keeps item (by simp) table active)

/-- A word is active after a list of operations when one activates it. -/
theorem active_foldl
    {α : Type} {change : ByteMem → α → ByteMem} {items : List α} {item : α}
    (listed : item ∈ items)
    (activates : ∀ current, Active (change current item) query)
    (keeps : ∀ item ∈ items, ∀ current,
      Active current query → Active (change current item) query) :
    Active (items.foldl change table) query := by
  induction items generalizing table with
  | nil => cases listed
  | cons head rest inductionHypothesis =>
      have later : ∀ item ∈ rest, ∀ current,
          Active current query → Active (change current item) query :=
        fun item member => keeps item (List.mem_cons_of_mem _ member)
      rw [List.foldl_cons]
      rcases List.mem_cons.mp listed with rfl | inRest
      · exact Active.foldl later (activates table)
      · exact inductionHypothesis inRest later

/-- Activating sites keeps the active words. -/
theorem Active.sites (active : Active table query) (sites : List Nat) :
    Active (sites.foldl Mcfi.activate table) query :=
  active.foldl fun site _ _ held => held.activate site

/-- Activating sites activates each of them. -/
theorem active_sites {sites : List Nat} (listed : query ∈ sites) :
    Active (sites.foldl activate table) query :=
  active_foldl listed (fun current => active_activate current query)
    (fun site _ _ held => held.activate site)

/-- Marking landing pads elsewhere keeps a word active. -/
theorem Active.pads {pads : List Nat} (elsewhere : query ∉ pads)
    (active : Active table query) :
    Active (pads.foldl
      (fun table pad => table.storeByte pad (UInt8.ofNat LPV)) table) query := by
  refine active.foldl fun pad listed current held => held.congr ?_
  have different : query ≠ pad := fun same => elsewhere (same ▸ listed)
  simp [storeByte, different]

end Bits

section Words

/-- No other word of the tables lies across the word at an address. -/
structure WordsApart (modules : List CodeModule) (addr : Nat) : Prop where
  targets : ∀ target : TarySymbol modules,
    target.codeModule.instrumented = true →
      target.addr = addr ∨ addr + 8 ≤ target.addr ∨ target.addr + 8 ≤ addr
  slots : ∀ branch : Branch modules,
    addr + 8 ≤ branch.sym.offset ∨ branch.sym.offset + 8 ≤ addr
  native : ∀ codeModule ∈ modules, codeModule.instrumented = false →
    addr + 8 ≤ codeModule.baseAddr ∨
      codeModule.baseAddr + codeModule.sz ≤ addr

/-- What decides which words of the tables a module has. -/
def CodeModule.words (codeModule : CodeModule) :
    Nat × Nat × Bool × List Symbol × List Symbol × List Symbol × List Symbol :=
  (codeModule.baseAddr, codeModule.sz, codeModule.instrumented,
    codeModule.funcsyms, codeModule.rad, codeModule.rai, codeModule.icfsyms)

/-- Modules with the same words have the same symbols of each kind. -/
private theorem symbols_of_words {first second : CodeModule}
    (same : first.words = second.words) :
    first.baseAddr = second.baseAddr ∧ first.sz = second.sz ∧
      first.instrumented = second.instrumented ∧
      first.icfsyms = second.icfsyms ∧
      ∀ kind : TaryKind, kind.symbols first = kind.symbols second := by
  simp only [CodeModule.words, Prod.mk.injEq] at same
  obtain ⟨base, size, instrumented, functions, direct, indirect, branches⟩ :=
    same
  refine ⟨base, size, instrumented, branches, fun kind => ?_⟩
  cases kind with
  | function => exact functions
  | directReturn => exact direct
  | indirectReturn => exact indirect

variable {before after : List CodeModule}

/-- A symbol stays where it is while the words are kept. -/
theorem KeepsView.tarySymbol
    (keeps : KeepsView CodeModule.words before after)
    (target : TarySymbol before) :
    ∃ later : TarySymbol after, later.addr = target.addr ∧
      later.codeModule.instrumented = target.codeModule.instrumented ∧
      later.kind = target.kind ∧ later.sym = target.sym := by
  obtain ⟨codeModule, loaded, kind, sym, listed⟩ := target
  obtain ⟨later, laterLoaded, same⟩ := keeps.exists_mem loaded
  obtain ⟨base, _, instrumented, _, symbols⟩ := symbols_of_words same
  refine ⟨⟨later, laterLoaded, kind, sym, ?_⟩, ?_, instrumented, rfl, rfl⟩
  · rw [symbols kind]
    exact listed
  · simp only [TarySymbol.addr, base]

/-- A branch keeps its slot while the words are kept. -/
theorem KeepsView.branch
    (keeps : KeepsView CodeModule.words before after) (branch : Branch before) :
    ∃ later : Branch after, later.sym = branch.sym := by
  obtain ⟨codeModule, loaded, sym, listed⟩ := branch
  obtain ⟨later, laterLoaded, same⟩ := keeps.exists_mem loaded
  obtain ⟨_, _, _, branches, _⟩ := symbols_of_words same
  exact ⟨⟨later, laterLoaded, sym, branches ▸ listed⟩, rfl⟩

/-- A module keeps its range while the words are kept. -/
theorem KeepsView.range
    (keeps : KeepsView CodeModule.words before after) {codeModule : CodeModule}
    (loaded : codeModule ∈ before) :
    ∃ later ∈ after, later.instrumented = codeModule.instrumented ∧
      ∀ addr, later.Holds addr ↔ codeModule.Holds addr := by
  obtain ⟨later, laterLoaded, same⟩ := keeps.exists_mem loaded
  obtain ⟨base, size, flag, _⟩ := symbols_of_words same
  refine ⟨later, laterLoaded, flag, fun addr => ?_⟩
  rw [CodeModule.Holds, CodeModule.Holds, base, size]

/-- Words that are apart in a larger list of modules are in a smaller one. -/
theorem WordsApart.mono {addr : Nat}
    (keeps : KeepsView CodeModule.words before after)
    (apart : WordsApart after addr) : WordsApart before addr where
  targets target instrumented := by
    obtain ⟨later, addrIs, sameFlag, _⟩ := keeps.tarySymbol target
    rw [← addrIs]
    exact apart.targets later (sameFlag.trans instrumented)
  slots branch := by
    obtain ⟨later, sameSym⟩ := keeps.branch branch
    rw [← sameSym]
    exact apart.slots later
  native codeModule loaded isNative := by
    obtain ⟨later, laterLoaded, same⟩ := keeps.exists_mem loaded
    obtain ⟨base, size, flag, _⟩ := symbols_of_words same
    rw [← base, ← size]
    exact apart.native later laterLoaded (flag.trans isNative)

variable {tables : IdTables} {modules : List CodeModule} {addr : Nat}

/-- The stores of an update are apart from a word that nothing lies across. -/
theorem WordsApart.stores (apart : WordsApart modules addr)
    {store : TableStore} (stored : store ∈ tableUpdate tables modules) :
    store.Apart addr := by
  rcases tableUpdate_store stored with ⟨target, instrumented, addrIs, _⟩ |
    ⟨native, loaded, isNative, holds, _, aligned⟩ | ⟨branch, rfl⟩
  · rw [TableStore.Apart, addrIs]
    exact apart.targets target instrumented
  · have outside := apart.native native loaded isNative
    have base := native.baseAligned
    have size := native.sizeAligned
    obtain ⟨above, below⟩ := holds
    unfold pageSize at base size
    refine Or.inr ?_
    omega
  · exact Or.inr (apart.slots branch)

/-- The stores at such a word are those of the symbols there. -/
theorem WordsApart.symbol (apart : WordsApart modules addr)
    {store : TableStore} (stored : store ∈ tableUpdate tables modules)
    (here : store.addr = addr) :
    ∃ target : TarySymbol modules, target.codeModule.instrumented = true ∧
      target.addr = addr ∧ target.id tables = some store.word := by
  rcases tableUpdate_store stored with ⟨target, instrumented, addrIs, found⟩ |
    ⟨native, loaded, isNative, holds, _⟩ | ⟨branch, rfl⟩
  · exact ⟨target, instrumented, addrIs.symm.trans here, found⟩
  · have outside := apart.native native loaded isNative
    rw [here] at holds
    obtain ⟨above, below⟩ := holds
    omega
  · have outside := apart.slots branch
    simp only [TableStore.addr] at here
    omega

end Words

section Generations

variable {attrs : UInt8} {before after : Runtime} {addr : Nat}

/-- The stores at a word that nothing lies across are stores of ids. -/
theorem WordsApart.ids
    {cfg : CfgData} (facts : CfgFacts attrs before cfg)
    (apart : WordsApart before.modules addr) {store : TableStore}
    (stored : store ∈ tableUpdate cfg.tables before.modules)
    (here : store.addr = addr) :
    (∀ target, store ≠ .native target) ∧ store.word % 2 = 1 ∧
      store.word < 2 ^ 64 := by
  obtain ⟨target, _, _, found⟩ := apart.symbol stored here
  have isId := facts.assignment.taryId_isId target.kind found
  refine ⟨fun range isNative => ?_, isId.odd, isId.lt⟩
  have odd := isId.odd
  rw [isNative, TableStore.word] at odd
  exact absurd odd (by decide)

/-- The compensation for early calls only activates. -/
theorem Active.compensated {cfg : CfgData}
    (active : Active (fillTables cfg before).table addr) :
    Active (compensated cfg before) addr := by
  unfold Mcfi.compensated
  split
  next => exact active
  next => exact active.foldl fun entry _ _ held => held.setBit0 entry.addr

/-- A generation keeps active what nothing lies across. -/
theorem WordsApart.active_genCfg
    (apart : WordsApart before.modules addr)
    (returned : genCfg attrs before = .ok after)
    (active : Active before.table addr) : Active after.table addr := by
  obtain ⟨cfg, computed, outcome⟩ := genCfg_result returned
  obtain ⟨facts⟩ := computeCfg_facts computed
  rw [outcome.tableIs]
  apply Active.compensated
  exact (odd_load64_runStores (fun _ stored => apart.stores stored)
    fun _ stored here => apart.ids facts stored here).mpr (Or.inl active)

/-- A generation keeps the words. -/
theorem words_genCfg (returned : genCfg attrs before = .ok after) :
    after.modules.map CodeModule.words =
      before.modules.map CodeModule.words := by
  obtain ⟨_, _, outcome⟩ := genCfg_result returned
  rw [outcome.modulesAre, List.map_map]
  rfl

end Generations

section Calls

/--
The calls that generate and patch: new modules do not lie across a word, and no
function entry marks a landing pad there.
-/
def Call.Spares (addr : Nat) (before : Runtime) : Call → Prop
  | .load parsed => WordsApart (loadElf parsed before).modules addr
  | .generate _ => True
  | .takeAddress _ _ => True
  | .patchAt _ => True
  | .patchEntry patchpoint => ∀ codeModule,
      findModule before.modules patchpoint = some codeModule →
        ∀ key ∈ codeModule.flp.targets (patchpoint - codeModule.baseAddr),
          codeModule.baseAddr + key ≠ addr
  | .patchCall _ => True
  | .createHeap _ _ _ _ => False
  | .fill _ _ _ _ _ => False
  | .register _ _ => False

variable {before after : Runtime} {addr : Nat} {call : Call}

/-- What one call keeps of a word that nothing lies across. -/
theorem Call.Spares.keeps
    (spares : call.Spares addr before) (returned : call.run before = .ok after)
    (apart : WordsApart before.modules addr) :
    WordsApart after.modules addr ∧
      (Active before.table addr → Active after.table addr) := by
  have kept : after.modules.map CodeModule.words =
      before.modules.map CodeModule.words → WordsApart after.modules addr :=
    fun same => apart.mono (KeepsView.of_map_eq same.symm)
  cases call with
  | load parsed =>
      cases returned
      exact ⟨spares, id⟩
  | generate attrs =>
      exact ⟨kept (words_genCfg returned), apart.active_genCfg returned⟩
  | takeAddress attrs funcAddr =>
      obtain ⟨modules, generated, located⟩ := takeAddrAndGenCfg_ok returned
      have same : modules.map CodeModule.words =
          before.modules.map CodeModule.words := located fun _ _ => rfl
      have apartThere :
          WordsApart ({ before with modules := modules } : Runtime).modules
            addr := apart.mono (KeepsView.of_map_eq same.symm)
      exact ⟨kept ((words_genCfg generated).trans same),
        apartThere.active_genCfg generated⟩
  | patchAt patchpoint =>
      obtain ⟨sites, _, _, rfl, _⟩ := patchAt_cases returned
      exact ⟨apart, fun active => active.sites sites⟩
  | patchEntry patchpoint =>
      obtain ⟨codeModule, sites, pads, _, _, located, _, padsAre, rfl, _⟩ :=
        patchEntry_cases returned
      refine ⟨kept (map_modifyModule _ _ fun _ => rfl), fun active => ?_⟩
      apply (active.sites sites).pads
      rw [padsAre, List.mem_map]
      rintro ⟨key, listed, here⟩
      exact spares codeModule located key listed here
  | patchCall patchpoint =>
      rcases patchCall_cases returned with rfl | ⟨target, _, _, _, _, tableIs, rfl⟩
      · exact ⟨apart, id⟩
      · refine ⟨apart, fun active => ?_⟩
        rcases tableIs with rfl | rfl
        · exact active
        · exact active.setBit0 target.addr
  | createHeap ph page size verifier => exact spares.elim
  | fill bufferAddr handle dst src extra => exact spares.elim
  | register handle metadata => exact spares.elim

/-- The states that such calls reach. -/
def SparingRun (addr : Nat) : Runtime → Runtime → Prop :=
  Relation.ReflTransGen fun before after =>
    ∃ call, Admitted (Call.Spares addr) before call after

/--
Once the target of a symbol is active it is active in every later state, when no
other word and no landing pad lies across its word.
-/
theorem activation_monotone
    {start state : Runtime} (target : TarySymbol start.modules)
    (apart : WordsApart start.modules target.addr)
    (run : SparingRun target.addr start state)
    (active : Active start.table target.addr) :
    Active state.table target.addr := by
  have kept : WordsApart state.modules target.addr ∧
      Active state.table target.addr := by
    induction run with
    | refl => exact ⟨apart, active⟩
    | tail _ step inductionHypothesis =>
        obtain ⟨call, admitted⟩ := step
        have keeps := admitted.admitted.keeps admitted.returned
          inductionHypothesis.1
        exact ⟨keeps.1, keeps.2 inductionHypothesis.2⟩
  exact kept.2

end Calls

section Examples

/-- The calls that generate the CFG and patch the code of loaded modules. -/
def Call.Patches (_ : Runtime) : Call → Prop
  | .generate _ => True
  | .takeAddress _ _ => True
  | .patchAt _ => True
  | .patchEntry _ => True
  | .patchCall _ => True
  | _ => False

/-- The states that such calls reach. -/
def PatchingRun : Runtime → Runtime → Prop :=
  Relation.ReflTransGen fun before after =>
    ∃ call, Admitted Call.Patches before call after

/-- Instrumented modules that are no code heaps, one name for each address. -/
structure PlainModules (modules : List CodeModule) : Prop where
  instrumented : ∀ m ∈ modules, m.instrumented = true
  notHeap : ∀ m ∈ modules, m.codeHeap = false
  names : ∀ first second : TarySymbol modules,
    first.addr = second.addr → first.sym.name = second.sym.name

namespace ActivationExample

open EnforcedExample

/-- A function with a call whose return address is also its landing pad. -/
def padModule : CodeModule :=
  { moduleAt 0x400000 programBase_aligned [⟨Name.ofPtr 16, 16⟩] [⟨Name.ofPtr 48, 0⟩] with
    raOrig := (∅ : OrdDict Nat Nat).insertNew 16 0
    funcOrig := (∅ : OrdDict Nat Nat).insertNew 0 0
    flp := link ∅ 0 16 }

/-- The process has loaded the module. -/
def padStart : Runtime :=
  loadElf padModule Runtime.boot

/-- The call has been patched out. -/
def padActive : Rt Runtime := do
  patchCall 0x400010 (← genCfg 0 padStart)

/-- The entry of the function has been patched out as well. -/
def padMarked : Rt Runtime := do
  patchEntry 0x400000 (← padActive)

/-- The return address of the call. -/
def padTarget : TarySymbol padStart.modules where
  codeModule := loadElf padModule Runtime.boot |>.modules.head (by decide)
  loaded := List.head_mem _
  kind := .directReturn
  sym := ⟨Name.ofPtr 16, 16⟩
  listed := by decide

theorem plain_pad : PlainModules padStart.modules where
  instrumented := by decide
  notHeap := by decide
  names := by
    have all : ∀ target : TarySymbol padStart.modules,
        target.sym.name = Name.ofPtr 16 := by
      rintro ⟨m, loaded, kind, sym, listed⟩
      cases List.mem_singleton.mp loaded
      cases kind with
      | function => cases List.mem_singleton.mp listed; rfl
      | directReturn => cases List.mem_singleton.mp listed; rfl
      | indirectReturn => cases listed
    intro first second _
    rw [all first, all second]

/-- The words of the module do not lie across each other. -/
theorem apart_pad : WordsApart padStart.modules 0x400010 where
  targets := by
    rintro ⟨m, loaded, kind, sym, listed⟩ _
    cases List.mem_singleton.mp loaded
    cases kind with
    | function =>
        cases List.mem_singleton.mp listed
        exact Or.inr (Or.inr (show 0x400000 + 8 ≤ 0x400010 by decide))
    | directReturn =>
        cases List.mem_singleton.mp listed
        exact Or.inl rfl
    | indirectReturn => cases listed
  slots := by
    rintro ⟨m, loaded, sym, listed⟩
    cases List.mem_singleton.mp loaded
    cases List.mem_singleton.mp listed
    exact Or.inr (show bidSlotStart + 8 ≤ 0x400010 by decide)
  native := by
    intro m loaded isNative
    cases List.mem_singleton.mp loaded
    cases isNative

/-- A function that is listed a second time, in the middle of its own word. -/
def acrossModule : CodeModule :=
  { moduleAt 0x400000 programBase_aligned [] [] with
    fatsInData := ∅
    fatsInCode := (∅ : KeySet Name).insertNew (Name.ofPtr 16) ()
    atFunc := (∅ : OrdDict Nat Name).insertNew 8 (Name.ofPtr 16)
    funcsyms := [⟨Name.ofPtr 16, 4⟩, ⟨Name.ofPtr 16, 0⟩] }

/-- Its address has been taken. -/
def acrossActive : Rt Runtime := do
  patchAt 0x400008 (← genCfg 0 (loadElf acrossModule Runtime.boot))

/-- The CFG has been generated once more. -/
def acrossAgain : Rt Runtime := do
  genCfg 0 (← acrossActive)

/-- The process has loaded the module, and the return address is active. -/
def padPatched : Runtime :=
  { padStart with table := setBit0 padStart.table 0x400010 }

end ActivationExample

open ActivationExample in
/-- Where words lie across each other a generation deactivates one of them. -/
theorem generation_deactivates_across :
    (acrossActive.toOption.map fun middle =>
        decide (middle.table.load64 0x400004 % 2 = 1)) = some true ∧
      (acrossAgain.toOption.map fun state =>
        decide (state.table.load64 0x400004 % 2 = 1)) = some false := by
  decide +kernel

open ActivationExample in
/-- A return address that is active stays active when the CFG is generated. -/
theorem activation_monotone_pad :
    ∃ state, genCfg 0 padPatched = .ok state ∧
      Active state.table 0x400010 := by
  have returned : (genCfg 0 padPatched).toOption.isSome = true := by
    decide +kernel
  cases generated : genCfg 0 padPatched with
  | error fault => simp [generated, Except.toOption] at returned
  | ok state =>
      have run : SparingRun 0x400010 padPatched state :=
        .single ⟨.generate 0, trivial, generated⟩
      exact ⟨state, rfl, @activation_monotone padPatched state padTarget
        apart_pad run (active_setBit0 padStart.table 0x400010)⟩

open ActivationExample in
/-- Marking a landing pad deactivates the return address in the same place. -/
theorem activation_lost :
    ¬ ∀ (start middle state : Runtime) (target : TarySymbol start.modules),
      PlainModules start.modules → PatchingRun start middle →
        PatchingRun middle state → Active middle.table target.addr →
          Active state.table target.addr := by
  intro monotone
  have computed :
      (padActive.toOption.map fun middle =>
        decide (middle.table.load64 padTarget.addr % 2 = 1)) = some true ∧
      (padMarked.toOption.map fun state =>
        decide (state.table.load64 padTarget.addr % 2 = 1)) = some false := by
    decide +kernel
  cases activates : padActive with
  | error fault => simp [activates, Except.toOption] at computed
  | ok middle =>
      cases marks : padMarked with
      | error fault => simp [marks, Except.toOption] at computed
      | ok state =>
          simp only [activates, marks, Except.toOption, Option.map_some,
            Option.some.injEq, decide_eq_true_eq, decide_eq_false_iff_not]
            at computed
          have marked : patchEntry 0x400000 middle = .ok state := by
            simpa [padMarked, activates, bind, Except.bind] using marks
          have called := activates
          unfold padActive at called
          rw [bind_eq_ok] at called
          obtain ⟨first, generated, called⟩ := called
          have toMiddle : PatchingRun padStart middle :=
            (Relation.ReflTransGen.single
              ⟨.generate 0, trivial, generated⟩).tail
              ⟨.patchCall 0x400010, trivial, called⟩
          exact computed.2 (monotone padStart middle state padTarget plain_pad
            toMiddle (.single ⟨.patchEntry 0x400000, trivial, marked⟩)
            computed.1)

end Examples

end Mcfi
