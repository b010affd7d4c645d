import Mcfi.Runtime

namespace Mcfi

open ByteMem LinkMap

/-!
# Preparing a module for online patching

`load_mcfi_metadata` saves the words at call sites and at the entries of
constructors and of functions with landing pads, and overwrites them with calls
into the runtime.  A word that is both is patched twice, and the word that its
entry restores is the one with the patched call.
-/

section Scan

/-- A symbol of the ELF file, by the prefix of its name, with its offset. -/
inductive CodeSymbol where
  | dcj (name : Name) (offset : Nat)
  | icj (name : Name) (offset : Nat)
  | addrTaken (name : Name) (offset : Nat)
  | landingPad (function : Name) (offset : Nat)
  | bary (name : Name) (offset : Nat)
  | function (name : Name) (offset : Nat)

/--
What `load_mcfi_metadata` reads of a file: the sections parsed into the fields of
a module, the functions that are constructors with their classes, the symbol
table, the PLT entries, and the bytes.
-/
structure ElfFile where
  sections : CodeModule
  ctor : OrdDict Name Name
  symtab : List CodeSymbol
  plt : List Symbol
  bytes : ByteMem

/-- The module that the loop over the symbol table starts with. -/
def ElfFile.codeModule (file : ElfFile) : CodeModule :=
  { file.sections with
    rad := []
    rai := []
    lp := []
    flp := ∅
    icfsyms := []
    raOrig := ∅
    atFunc := ∅
    funcOrig := ∅
    ctor := ∅
    definedCtors := ∅ }

/--
An entry of `ra_orig`.  The key of an indirect call is marked until the calls are
patched.
-/
structure SavedRa where
  offset : Nat
  marked : Bool
  word : Nat

/-- The state of the loop over the symbol table. -/
structure SymtabScan where
  elf : ByteMem
  bidSlot : Nat
  codeModule : CodeModule
  raOrig : List SavedRa
  flp : LinkMap Name Nat

/-- `dict_add` on `ra_orig`, which does not see the marked keys. -/
def addRa (raOrig : List SavedRa) (saved : SavedRa) : Rt (List SavedRa) := do
  check "dict_add" (raOrig.all fun old => old.offset != saved.offset || old.marked)
  return raOrig ++ [saved]

/-- `load_mcfi_metadata`, the body of the loop over the symbol table. -/
def scanSymbol (ctor : OrdDict Name Name) (vtabletaken : KeySet Name)
    (scan : SymtabScan) : CodeSymbol → Rt SymtabScan
  | .dcj name offset => do
      let raOrig ← addRa scan.raOrig
        ⟨offset, false, scan.elf.load64 (offset - 8)⟩
      return { scan with
        codeModule := { scan.codeModule with
          rad := scan.codeModule.rad ++ [⟨name, offset⟩] }
        raOrig := raOrig }
  | .icj name offset => do
      let raOrig ← addRa scan.raOrig
        ⟨offset, true, scan.elf.load64 (offset - 8)⟩
      return { scan with
        codeModule := { scan.codeModule with
          rai := scan.codeModule.rai ++ [⟨name, offset⟩] }
        raOrig := raOrig }
  | .addrTaken name offset => do
      let atFunc ← dictAdd scan.codeModule.atFunc offset name
      return { scan with
        codeModule := { scan.codeModule with atFunc := atFunc } }
  | .landingPad function offset =>
      -- a landing pad has no name
      return { scan with
        codeModule := { scan.codeModule with
          lp := scan.codeModule.lp ++ [⟨Name.ofPtr 0, offset⟩] }
        flp := gAddDirectedEdge scan.flp function offset }
  | .bary name offset =>
      let slot := scan.bidSlot
      return { scan with
        elf := scan.elf.store (offset - 4) 4 slot
        bidSlot := (slot + 8) % 2 ^ 32
        codeModule := { scan.codeModule with
          icfsyms := scan.codeModule.icfsyms ++ [⟨name, slot⟩] } }
  | .function name offset => do
      let m := { scan.codeModule with
        funcsyms := scan.codeModule.funcsyms ++ [⟨name, offset⟩] }
      match dictFind ctor name with
      | none => return { scan with codeModule := m }
      | some className =>
          if !dictIn vtabletaken className && dictIn m.vtable className then do
            let funcOrig ← dictAdd m.funcOrig offset (scan.elf.load64 offset)
            let ctor ← dictAdd m.ctor offset className
            return { scan with
              codeModule := { m with
                funcOrig := funcOrig
                ctor := ctor
                definedCtors := m.definedCtors.insertNew className () } }
          else
            return { scan with codeModule := m }

/-- `load_mcfi_metadata`, the loop that registers landing pads. -/
def registerPads (scan : SymtabScan) : CodeModule :=
  scan.codeModule.funcsyms.foldl (fun m f =>
    match dictFind scan.flp f.name with
    | none => m
    | some pads =>
        { m with
          flp := pads.keys.foldl (fun flp pad => gAddEdge flp f.offset pad) m.flp
          funcOrig := m.funcOrig.insertNew f.offset (scan.elf.load64 f.offset) })
    scan.codeModule

end Scan

section Patches

/-- The distance of a call, a 32-bit number. -/
def callDistance (target source : Nat) : Nat :=
  (target + 2 ^ 32 - source % 2 ^ 32) % 2 ^ 32

/-- `load_mcfi_metadata`, one call site that is made to call `__patch_call`. -/
def patchCallSite (patchCallOffset : Nat) (elf : ByteMem) (saved : SavedRa) :
    ByteMem :=
  let callsite := saved.offset % 2 ^ 32
  if saved.marked then
    let p := callsite - 8
    -- the call is of three bytes with a new register, else of two
    let nop := if elf (p + 5) ≠ 0 then 0 else 1
    let ends := if elf (p + 5) ≠ 0 then callsite - 3 else callsite - 2
    (elf.storeByte (p + nop) 0xe8).store (p + nop + 1) 4
      (callDistance patchCallOffset ends)
  else
    elf.store (callsite - 4) 4 (callDistance patchCallOffset callsite)

/-- `load_mcfi_metadata`, one entry that is made to call `__patch_entry`. -/
def patchEntrySite (patchEntryOffset : Nat) (elf : ByteMem) (entry : Nat × Nat) :
    ByteMem :=
  let callsite := entry.1 % 2 ^ 32
  (elf.storeByte callsite 0xe8).store (callsite + 1) 4
    (callDistance patchEntryOffset (callsite + 5))

/-- The offset of the last function symbol of a name. -/
def lastOffset (name : Name) (syms : List Symbol) : Option Nat :=
  (syms.filter fun s => s.name = name).getLast?.map Symbol.offset

/-- The entries of `ra_orig` that are found once calls were patched, or not. -/
def findableRa (patchCallOffset : Option Nat) (raOrig : List SavedRa) :
    List SavedRa :=
  if patchCallOffset.isSome then raOrig
  else raOrig.filter fun saved => !saved.marked

theorem findableRa_subset
    {patchCallOffset : Option Nat} {raOrig : List SavedRa} :
    findableRa patchCallOffset raOrig ⊆ raOrig := by
  unfold findableRa
  split
  next => exact List.Subset.refl _
  next => exact List.filter_subset_self _

/-- The calls of `load_mcfi_metadata` into the runtime, in the bytes. -/
def patchCallSites (patchCallOffset : Option Nat) (raOrig : List SavedRa)
    (elf : ByteMem) : ByteMem :=
  match patchCallOffset with
  | none => elf
  | some target => raOrig.foldl (patchCallSite target) elf

/-- The same for entries. -/
def patchEntrySites (patchEntryOffset : Option Nat)
    (funcOrig : OrdDict Nat Nat) (elf : ByteMem) : ByteMem :=
  match patchEntryOffset with
  | none => elf
  | some target => funcOrig.entries.foldl (patchEntrySite target) elf

/-- The loop that saves the patched word where one place is patched twice. -/
def orderPatches (elf : ByteMem) (raOrig : List SavedRa)
    (funcOrig : OrdDict Nat Nat) : OrdDict Nat Nat :=
  funcOrig.keys.foldl (fun saved key =>
    if raOrig.any fun ra => ra.offset = key + 8 then
      saved.modify key fun _ => elf.load64 key
    else
      saved) funcOrig

end Patches

/-- What `load_mcfi_metadata` leaves: the module and the bytes of the file. -/
structure LoadedElf where
  codeModule : CodeModule
  -- with the Bary slots, before and after the online patches
  original : ByteMem
  patched : ByteMem

/--
`load_mcfi_metadata`, from the symbol table on.  The names are those of the two
functions that code is patched to call; the second one is only looked for in the
PLT.
-/
def loadMcfiMetadata (patchCall patchEntry : Name) (vtabletaken : KeySet Name)
    (bidSlot : Nat) (file : ElfFile) : Rt LoadedElf := do
  let scan ← file.symtab.foldlM (scanSymbol file.ctor vtabletaken)
    ⟨file.bytes, bidSlot, file.codeModule, [], ∅⟩
  let m := registerPads scan
  let patchCallOffset := lastOffset patchCall (m.funcsyms ++ file.plt)
  let patchEntryOffset := lastOffset patchEntry file.plt
  let elf := patchCallSites patchCallOffset scan.raOrig scan.elf
  let raOrig := findableRa patchCallOffset scan.raOrig
  let funcOrig := orderPatches elf raOrig m.funcOrig
  return {
    codeModule := { m with
      funcsyms := m.funcsyms ++ file.plt
      raOrig := raOrig.foldl (fun dict saved =>
        dict.insertNew saved.offset saved.word) ∅
      funcOrig := funcOrig }
    original := scan.elf
    patched := patchEntrySites patchEntryOffset funcOrig elf }

section Saved

variable {file : ElfFile} {scan : SymtabScan}

/-- No Bary slot is stored into a word. -/
def Avoids (symtab : List CodeSymbol) (addr : Nat) : Prop :=
  ∀ name slot, CodeSymbol.bary name slot ∈ symtab →
    addr + 8 ≤ slot - 4 ∨ slot - 4 + 4 ≤ addr

/-- The words saved so far are those of the file, if no slot is stored there. -/
structure ScanSaves (file : ElfFile) (scan : SymtabScan) : Prop where
  bytes : ∀ addr, Avoids file.symtab addr →
    scan.elf.load64 addr = file.bytes.load64 addr
  calls : ∀ saved ∈ scan.raOrig, Avoids file.symtab (saved.offset - 8) →
    saved.word = file.bytes.load64 (saved.offset - 8)
  entries : ∀ offset word,
    scan.codeModule.funcOrig.find offset = some word →
    Avoids file.symtab offset → word = file.bytes.load64 offset
  small : ∀ offset word, scan.codeModule.funcOrig.find offset = some word →
    word < 2 ^ 64

/-- Saving one more call site. -/
private theorem ScanSaves.addRa
    (saves : ScanSaves file scan) {offset : Nat} {marked : Bool}
    {raOrig : List SavedRa}
    (added : addRa scan.raOrig
      ⟨offset, marked, scan.elf.load64 (offset - 8)⟩ = .ok raOrig) :
    ∀ saved ∈ raOrig, Avoids file.symtab (saved.offset - 8) →
      saved.word = file.bytes.load64 (saved.offset - 8) := by
  unfold Mcfi.addRa at added
  rw [bind_eq_ok] at added
  obtain ⟨_, _, added⟩ := added
  rw [pure_eq_ok] at added
  subst added
  intro saved member avoids
  rcases List.mem_append.mp member with old | new
  · exact saves.calls saved old avoids
  · cases List.mem_singleton.mp new
    exact saves.bytes _ avoids

/-- Each symbol keeps what was saved. -/
private theorem scanSymbol_saves
    {ctor : OrdDict Name Name} {vtabletaken : KeySet Name} {symbol : CodeSymbol}
    {next : SymtabScan} (saves : ScanSaves file scan)
    (listed : symbol ∈ file.symtab)
    (returned : scanSymbol ctor vtabletaken scan symbol = .ok next) :
    ScanSaves file next := by
  cases symbol with
  | dcj name offset =>
      simp only [scanSymbol, bind_eq_ok, pure_eq_ok] at returned
      obtain ⟨raOrig, added, rfl⟩ := returned
      exact ⟨saves.bytes, saves.addRa added, saves.entries, saves.small⟩
  | icj name offset =>
      simp only [scanSymbol, bind_eq_ok, pure_eq_ok] at returned
      obtain ⟨raOrig, added, rfl⟩ := returned
      exact ⟨saves.bytes, saves.addRa added, saves.entries, saves.small⟩
  | addrTaken name offset =>
      simp only [scanSymbol, bind_eq_ok, pure_eq_ok] at returned
      obtain ⟨atFunc, _, rfl⟩ := returned
      exact ⟨saves.bytes, saves.calls, saves.entries, saves.small⟩
  | landingPad function offset =>
      simp only [scanSymbol, pure_eq_ok] at returned
      subst returned
      exact ⟨saves.bytes, saves.calls, saves.entries, saves.small⟩
  | bary name offset =>
      simp only [scanSymbol, pure_eq_ok] at returned
      subst returned
      refine ⟨fun addr avoids => ?_, saves.calls, saves.entries, saves.small⟩
      rw [← saves.bytes addr avoids]
      exact load_store_disjoint _ (avoids name offset listed)
  | function name offset =>
      simp only [scanSymbol] at returned
      split at returned
      next =>
        rw [pure_eq_ok] at returned
        subst returned
        exact ⟨saves.bytes, saves.calls, saves.entries, saves.small⟩
      next className _ =>
        split at returned
        next =>
          simp only [bind_eq_ok, pure_eq_ok] at returned
          obtain ⟨funcOrig, added, ctor, _, rfl⟩ := returned
          obtain ⟨_, rfl⟩ := dictAdd_eq_ok.mp added
          have cases : ∀ key word,
              (scan.codeModule.funcOrig.insertNew offset
                (scan.elf.load64 offset)).find key = some word →
              scan.codeModule.funcOrig.find key = some word ∨
                word = scan.elf.load64 key := by
            intro key word found
            rw [OrdDict.find_insertNew] at found
            split at found
            next here =>
              rw [here.1]
              exact Or.inr (Option.some.inj found).symm
            next => exact Or.inl found
          refine ⟨saves.bytes, saves.calls, fun key word found avoids => ?_,
            fun key word found => ?_⟩
          · rcases cases key word found with old | new
            · exact saves.entries key word old avoids
            · exact new.trans (saves.bytes key avoids)
          · rcases cases key word found with old | new
            · exact saves.small key word old
            · rw [new]
              exact load64_lt _ _
        next =>
          rw [pure_eq_ok] at returned
          subst returned
          exact ⟨saves.bytes, saves.calls, saves.entries, saves.small⟩

/-- After the loop over the symbol table the saved words are those of the file. -/
private theorem scan_saves
    {vtabletaken : KeySet Name} {bidSlot : Nat}
    (returned : file.symtab.foldlM (scanSymbol file.ctor vtabletaken)
      ⟨file.bytes, bidSlot, file.codeModule, [], ∅⟩ = .ok scan) :
    ScanSaves file scan := by
  refine foldlM_invariant (fun _ => ScanSaves file) ?_ ?_ returned
  · exact ⟨fun _ _ => rfl, fun _ member => (nomatch member),
      fun _ _ found => (nomatch found), fun _ _ found => (nomatch found)⟩
  · intro done symbol rest before after split saves step
    refine scanSymbol_saves saves ?_ step
    rw [split]
    exact List.mem_append_right _ List.mem_cons_self

/-- Landing pads save the words of the bytes as they are. -/
private theorem registerPads_find
    {offset word : Nat}
    (found : (registerPads scan).funcOrig.find offset = some word) :
    scan.codeModule.funcOrig.find offset = some word ∨
      word = scan.elf.load64 offset := by
  unfold registerPads at found
  generalize scan.codeModule.funcsyms = funcsyms at found
  generalize scan.codeModule = m at found ⊢
  induction funcsyms generalizing m with
  | nil => exact Or.inl found
  | cons f rest inductionHypothesis =>
      rw [List.foldl_cons] at found
      rcases inductionHypothesis _ found with old | new
      · split at old
        next => exact Or.inl old
        next pads _ =>
          rw [OrdDict.find_insertNew] at old
          split at old
          next here =>
            rw [here.1]
            exact Or.inr (Option.some.inj old).symm
          next => exact Or.inl old
      · exact Or.inr new

end Saved

section Frames

variable {elf : ByteMem} {addr : Nat}

/-- A patched call site changes its word only. -/
private theorem patchCallSite_other
    {target : Nat} {saved : SavedRa} (low : 8 ≤ saved.offset)
    (small : saved.offset < 2 ^ 32)
    (outside : addr < saved.offset - 8 ∨ saved.offset ≤ addr) :
    patchCallSite target elf saved addr = elf addr := by
  unfold patchCallSite
  simp only [Nat.mod_eq_of_lt small]
  split
  next =>
    have near : (if elf (saved.offset - 8 + 5) ≠ 0 then 0 else 1) ≤ 1 := by
      split <;> decide
    rw [store_other _ (by omega)]
    exact if_neg (by omega)
  next => exact store_other _ (by omega)

/-- The patched call sites change their words only. -/
theorem patchCallSites_other
    {patchCallOffset : Option Nat} {raOrig : List SavedRa}
    (inside : ∀ saved ∈ findableRa patchCallOffset raOrig,
      8 ≤ saved.offset ∧ saved.offset < 2 ^ 32)
    (outside : ∀ saved ∈ findableRa patchCallOffset raOrig,
      addr < saved.offset - 8 ∨ saved.offset ≤ addr) :
    patchCallSites patchCallOffset raOrig elf addr = elf addr := by
  cases patchCallOffset with
  | none => rfl
  | some target =>
      simp only [findableRa, Option.isSome_some, if_true] at inside outside
      simp only [patchCallSites]
      induction raOrig generalizing elf with
      | nil => rfl
      | cons saved rest inductionHypothesis =>
          obtain ⟨low, small⟩ := inside saved List.mem_cons_self
          rw [List.foldl_cons, inductionHypothesis
            (fun other member => inside other (List.mem_cons_of_mem _ member))
            (fun other member => outside other (List.mem_cons_of_mem _ member))]
          exact patchCallSite_other low small
            (outside saved List.mem_cons_self)

/-- The patched entries change their words only. -/
theorem patchEntrySites_other
    {patchEntryOffset : Option Nat} {funcOrig : OrdDict Nat Nat}
    (inside : ∀ key ∈ funcOrig, key < 2 ^ 32)
    (outside : ∀ key ∈ funcOrig, addr < key ∨ key + 8 ≤ addr) :
    patchEntrySites patchEntryOffset funcOrig elf addr = elf addr := by
  cases patchEntryOffset with
  | none => rfl
  | some target =>
      have listed : ∀ entry ∈ funcOrig.entries, entry.1 ∈ funcOrig :=
        fun entry member => OrdDict.mem_iff_exists.mpr ⟨entry.2, member⟩
      simp only [patchEntrySites]
      generalize funcOrig.entries = entries at listed
      induction entries generalizing elf with
      | nil => rfl
      | cons entry rest inductionHypothesis =>
          have known := listed entry List.mem_cons_self
          have apart := outside _ known
          rw [List.foldl_cons, inductionHypothesis fun other member =>
            listed other (List.mem_cons_of_mem _ member)]
          unfold patchEntrySite
          simp only [Nat.mod_eq_of_lt (inside _ known)]
          rw [store_other _ (by omega)]
          exact if_neg (by omega)

end Frames

section Dictionaries

/-- The found entries of `ra_orig`, as a dictionary. -/
private theorem find_insertAll
    {raOrig : List SavedRa} {dict : OrdDict Nat Nat} {offset word : Nat}
    (found : (raOrig.foldl (fun dict saved =>
      dict.insertNew saved.offset saved.word) dict).find offset = some word) :
    dict.find offset = some word ∨
      ∃ saved ∈ raOrig, saved.offset = offset ∧ saved.word = word := by
  induction raOrig generalizing dict with
  | nil => exact Or.inl found
  | cons saved rest inductionHypothesis =>
      rw [List.foldl_cons] at found
      rcases inductionHypothesis found with old | ⟨other, member, facts⟩
      · rw [OrdDict.find_insertNew] at old
        split at old
        next here =>
          cases old
          exact Or.inr ⟨saved, List.mem_cons_self, here.1.symm, rfl⟩
        next => exact Or.inl old
      · exact Or.inr ⟨other, List.mem_cons_of_mem _ member, facts⟩

/-- The keys of the found entries. -/
theorem mem_insertAll
    {raOrig : List SavedRa} {dict : OrdDict Nat Nat} {offset : Nat} :
    offset ∈ raOrig.foldl (fun dict saved =>
        dict.insertNew saved.offset saved.word) dict ↔
      offset ∈ dict ∨ ∃ saved ∈ raOrig, saved.offset = offset := by
  induction raOrig generalizing dict with
  | nil => simp
  | cons saved rest inductionHypothesis =>
      rw [List.foldl_cons, inductionHypothesis, OrdDict.mem_insertNew,
        List.exists_mem_cons_iff]
      grind

/-- What an entry restores once the order of the patches is established. -/
theorem find_orderPatches
    (elf : ByteMem) (raOrig : List SavedRa) (funcOrig : OrdDict Nat Nat)
    (offset : Nat) :
    (orderPatches elf raOrig funcOrig).find offset =
      if raOrig.any fun ra => ra.offset = offset + 8 then
        (funcOrig.find offset).map fun _ => elf.load64 offset
      else
        funcOrig.find offset := by
  have fold : ∀ (keys : List Nat) (saved : OrdDict Nat Nat),
      (keys.foldl (fun saved key =>
        if raOrig.any fun ra => ra.offset = key + 8 then
          saved.modify key fun _ => elf.load64 key
        else
          saved) saved).find offset =
        if offset ∈ keys ∧ raOrig.any fun ra => ra.offset = offset + 8 then
          (saved.find offset).map fun _ => elf.load64 offset
        else
          saved.find offset := by
    intro keys
    induction keys with
    | nil => simp
    | cons key rest inductionHypothesis =>
        intro saved
        rw [List.foldl_cons, inductionHypothesis]
        by_cases same : offset = key
        · subst same
          by_cases double : raOrig.any fun ra => ra.offset = offset + 8
          · simp only [double, if_true, OrdDict.find_modify, and_true,
              List.mem_cons_self, Option.map_map]
            split <;> rfl
          · simp only [double, if_false, and_false, Bool.false_eq_true]
        · have unchanged : (if raOrig.any fun ra => ra.offset = key + 8 then
              saved.modify key fun _ => elf.load64 key else saved).find offset =
              saved.find offset := by
            split
            · rw [OrdDict.find_modify, if_neg same]
            · rfl
          rw [unchanged]
          simp only [List.mem_cons, same, false_or]
  rw [orderPatches, fold]
  by_cases known : offset ∈ funcOrig.keys
  · simp only [known, true_and]
  · have absent : funcOrig.find offset = none := OrdDict.find_eq_none.mpr known
    simp only [absent, Option.map_none, ite_self]

end Dictionaries

section Loaded

variable {patchCall patchEntry : Name} {vtabletaken : KeySet Name}
  {bidSlot : Nat} {file : ElfFile} {loaded : LoadedElf}

/-- The words that are patched lie in the module, which is below four gigabytes. -/
structure CodeModule.WordsInside (m : CodeModule) : Prop where
  calls : ∀ offset ∈ m.raOrig, 8 ≤ offset ∧ offset ≤ m.sz
  entries : ∀ offset ∈ m.funcOrig, offset + 8 ≤ m.sz
  small : m.sz < 2 ^ 32

/-- No Bary slot is stored into a word that is patched. -/
def SlotsOutside (file : ElfFile) (m : CodeModule) : Prop :=
  (∀ offset ∈ m.raOrig, Avoids file.symtab (offset - 8)) ∧
    ∀ offset ∈ m.funcOrig, Avoids file.symtab offset

/-- What a prepared module saves and what its bytes are. -/
structure LoadedElf.Prepares (loaded : LoadedElf) : Prop where
  calls : ∀ offset word, loaded.codeModule.raOrig.find offset = some word →
    word = loaded.original.load64 (offset - 8)
  entries : ∀ offset word, loaded.codeModule.funcOrig.find offset = some word →
    offset + 8 ∉ loaded.codeModule.raOrig →
      word = loaded.original.load64 offset
  small : ∀ offset word, loaded.codeModule.funcOrig.find offset = some word →
    word < 2 ^ 64
  untouched : ∀ addr,
    (∀ offset ∈ loaded.codeModule.raOrig, addr < offset - 8 ∨ offset ≤ addr) →
    (∀ offset ∈ loaded.codeModule.funcOrig,
      addr < offset ∨ offset + 8 ≤ addr) →
      loaded.patched addr = loaded.original addr

/-- Preparing a module saves its words. -/
theorem loadMcfiMetadata_prepares
    (returned : loadMcfiMetadata patchCall patchEntry vtabletaken bidSlot file =
      .ok loaded)
    (inside : loaded.codeModule.WordsInside)
    (apart : SlotsOutside file loaded.codeModule) :
    loaded.Prepares := by
  unfold loadMcfiMetadata at returned
  rw [bind_eq_ok] at returned
  obtain ⟨scan, scanned, returned⟩ := returned
  rw [pure_eq_ok] at returned
  subst returned
  have saves := scan_saves scanned
  have known : ∀ saved ∈ findableRa
      (lastOffset patchCall ((registerPads scan).funcsyms ++ file.plt))
      scan.raOrig,
      saved.offset ∈ (findableRa (lastOffset patchCall
        ((registerPads scan).funcsyms ++ file.plt)) scan.raOrig).foldl
          (fun dict saved => dict.insertNew saved.offset saved.word)
          (∅ : OrdDict Nat Nat) :=
    fun saved member => mem_insertAll.mpr (Or.inr ⟨saved, member, rfl⟩)
  refine ⟨fun offset word found => ?_, fun offset word found single => ?_,
    fun offset word found => ?_, fun addr outsideCalls outsideEntries => ?_⟩
  · have avoids := apart.1 offset (OrdDict.find_isSome.mp (found ▸ rfl))
    rcases find_insertAll found with never | ⟨saved, member, rfl, rfl⟩
    · cases never
    · exact (saves.calls saved (findableRa_subset member) avoids).trans
        (saves.bytes _ avoids).symm
  · have avoids := apart.2 offset (OrdDict.find_isSome.mp (found ▸ rfl))
    have notDouble : (findableRa (lastOffset patchCall
        ((registerPads scan).funcsyms ++ file.plt)) scan.raOrig).any
        (fun ra => ra.offset = offset + 8) = false := by
      rw [List.any_eq_false]
      intro saved member same
      rw [decide_eq_true_eq] at same
      exact single (same ▸ known saved member)
    change (orderPatches _ _ _).find offset = some word at found
    rw [find_orderPatches, notDouble, if_neg (by decide)] at found
    rcases registerPads_find found with old | new
    · exact (saves.entries offset word old avoids).trans
        (saves.bytes _ avoids).symm
    · exact new
  · change (orderPatches _ _ _).find offset = some word at found
    rw [find_orderPatches] at found
    split at found
    next =>
      obtain ⟨_, _, isWord⟩ := Option.map_eq_some_iff.mp found
      rw [← isWord]
      exact load64_lt _ _
    next =>
      rcases registerPads_find found with old | new
      · exact saves.small offset word old
      · rw [new]
        exact load64_lt _ _
  · have below := inside.small
    refine (patchEntrySites_other (fun key member => ?_) outsideEntries).trans
      (patchCallSites_other (fun saved member => ?_)
        fun saved member => outsideCalls _ (known saved member))
    · have fits := inside.entries key member
      omega
    · have fits := inside.calls _ (known saved member)
      omega

end Loaded

end Mcfi
