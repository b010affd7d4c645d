import Mcfi.InternedParsers
import Mcfi.LabelNames
import Mcfi.Runtime

namespace Mcfi

open InternPool

/-!
# The names of a loaded module

`load_mcfi_metadata` fills all tables of a module with names: those of the metadata
sections, of two functions it adds to an executable, and of the symbols.  A name can
be found in a table when it is the pool's element for its string.  The tables of code
words and of dynamic functions hold no other names and are left out here.
-/

section Image

/-- An `Elf64_Sym`. -/
structure ElfSym where
  stName : Nat
  stValue : Nat
  isGlobal : Bool
  isFunc : Bool
  -- `st_shndx != SHN_UNDEF`
  isDefined : Bool

/--
A section, and the file behind it.  The content of a symbol table or a relocation
table is given as symbols or as the symbol indices of the relocations.
-/
structure ElfSection where
  shname : Text
  shOffset : Nat
  content : Text
  behind : Text
  syms : List ElfSym
  relas : List Nat

/-- An ELF file. -/
structure ElfImage where
  eType : Nat
  eEntry : Nat
  eShstrndx : Nat
  sections : List ElfSection

/-- `ET_EXEC`. -/
def etExec : Nat := 2

/-- `cm->base_addr`. -/
def ElfImage.baseAddr (image : ElfImage) : Nat :=
  if image.eType = etExec then x64AbiBase else 0

/-- The tables that `load_mcfi_metadata` finds in a file. -/
structure ElfTables where
  sym : List ElfSym := []
  strtab : Option Text := none
  relaplt : List Nat := []
  pltOffset : Nat := 0
  dynsym : List ElfSym := []
  dynstr : Option Text := none
  instrumented : Bool := false

/-- The names of the metadata sections. -/
def metadataSections : List Text :=
  [".MCFIIndirectCalls", ".MCFIFuncInfo", ".MCFICHA", ".MCFIAliases", ".MCFIAddrTaken",
    ".MCFIAddrTakenInCode", ".MCFIVtable", ".MCFIDtorCxaAtExit",
    ".MCFIDtorCxaThrow"].map String.toList

/-- The loop over the sections, what it remembers of one. -/
def ElfTables.read (tables : ElfTables) (elfSection : ElfSection) : ElfTables :=
  if elfSection.shname = ".symtab".toList then
    { tables with sym := elfSection.syms }
  else if elfSection.shname = ".strtab".toList then
    { tables with strtab := some (elfSection.content ++ elfSection.behind) }
  else if metadataSections.contains elfSection.shname then
    { tables with instrumented := true }
  else if elfSection.shname = ".rela.plt".toList then
    { tables with relaplt := elfSection.relas }
  else if elfSection.shname = ".plt".toList then
    { tables with pltOffset := elfSection.shOffset }
  else if elfSection.shname = ".dynsym".toList then
    { tables with dynsym := elfSection.syms }
  else if elfSection.shname = ".dynstr".toList then
    { tables with dynstr := some (elfSection.content ++ elfSection.behind) }
  else
    tables

/-- The sections that the loop looks at. -/
def ElfImage.loopSections (image : ElfImage) : List ElfSection :=
  image.sections.eraseIdx image.eShstrndx

/-- What all sections leave. -/
def ElfImage.tables (image : ElfImage) : ElfTables :=
  image.loopSections.foldl ElfTables.read {}

/-- A string of a string table that may be missing. -/
def stringOf (strtab : Option Text) (offset : Nat) : Rt Text :=
  match strtab with
  | some strings => .ok (stringAt strings offset)
  | none => .error (.pageFault "load_mcfi_metadata")

end Image

/-- A symbol with its name. -/
structure SymbolOf (N : Type) where
  name : N
  offset : Nat

/-- The names of symbols; a landing pad is recorded without one. -/
structure SymbolTables (N : Type) where
  rad : List (SymbolOf N) := []
  rai : List (SymbolOf N) := []
  atFunc : OrdDict Nat N := ∅
  lp : List Nat := []
  flp : LinkMap N Nat := ∅
  icfsyms : List (SymbolOf N) := []
  funcsyms : List (SymbolOf N) := []
  bidSlot : Nat

section Pointers

/-- The names of the metadata sections. -/
structure SectionNames where
  icfs : List LoadedIcf := []
  functions : List LoadedFunction := []
  ctor : OrdDict CharPtr CharPtr := ∅
  hierarchy : LoadedClasses := ⟨∅, ∅⟩
  aliases : LinkMap CharPtr CharPtr := ∅
  fatsInCode : KeySet CharPtr := ∅
  fatsInData : KeySet CharPtr := ∅
  vtable : OrdDict CharPtr (List CharPtr) := ∅

/-- The fields of `code_module_t` that hold names. -/
structure LoadedModule where
  icfs : List LoadedIcf
  functions : List LoadedFunction
  hierarchy : LoadedClasses
  aliases : LinkMap CharPtr CharPtr
  fatsInCode : KeySet CharPtr
  fatsInData : KeySet CharPtr
  fats : KeySet CharPtr
  vtable : OrdDict CharPtr (List CharPtr)
  symbols : SymbolTables CharPtr

namespace Loading

/-- `load_mcfi_metadata`, what the loop over the sections parses. -/
def readSection (names : SectionNames) (elfSection : ElfSection) : Loading SectionNames :=
  let content := elfSection.content
  let behind := elfSection.behind
  if elfSection.shname = ".MCFIIndirectCalls".toList then do
    let (icfs, _) ← parseIcfs content behind names.icfs
    return { names with icfs := icfs }
  else if elfSection.shname = ".MCFIFuncInfo".toList then do
    let (tables, _) ← parseFunctions content behind names.functions names.ctor
    return { names with functions := tables.functions, ctor := tables.ctor }
  else if elfSection.shname = ".MCFICHA".toList then do
    let (hierarchy, _) ← parseCha content behind names.hierarchy
    return { names with hierarchy := hierarchy }
  else if elfSection.shname = ".MCFIAliases".toList then do
    let (aliases, _) ← parseAliases content behind names.aliases
    return { names with aliases := aliases }
  else if elfSection.shname = ".MCFIAddrTaken".toList then do
    let (fats, _) ← parseFats content behind names.fatsInData
    return { names with fatsInData := fats }
  else if elfSection.shname = ".MCFIAddrTakenInCode".toList then do
    let (fats, _) ← parseFats content behind names.fatsInCode
    return { names with fatsInCode := fats }
  else if elfSection.shname = ".MCFIVtable".toList then do
    let (vtable, _) ← parseVtable content behind names.vtable
    return { names with vtable := vtable }
  else
    return names

/-- `load_mcfi_metadata`, the functions that are added to an executable. -/
def addSpecialFunctions (image : ElfImage) (bidSlot : Nat) (names : SectionNames) :
    Loading (SectionNames × SymbolTables CharPtr) :=
  if image.eType = etExec then do
    let entry ← spInternString "__exe_elf_entry".toList
    let entryType ← spInternString "ExeElfEntry".toList
    let fats ← lift (dictAdd names.fatsInData entry ())
    let personality ← spInternString "__gxx_personality_v0".toList
    let personalityType ← spInternString
      "i32!i32@i32@i64@%struct._Unwind_Exception*@%struct._Unwind_Context*@".toList
    -- the literal itself is the key
    let fats ← lift (dictAdd fats (.literal "__gxx_personality_v0".toList) ())
    return ({ names with
        functions := names.functions ++
          [{ allocLoadedFunction entry with type := some entryType },
            { allocLoadedFunction personality with type := some personalityType }]
        fatsInData := fats },
      { bidSlot := bidSlot
        funcsyms := [⟨entry, (image.eEntry + 2 ^ 64 - image.baseAddr) % 2 ^ 64⟩] })
  else
    return (names, { bidSlot := bidSlot })

/-- `load_mcfi_metadata`, the body of the loop over the symbol table. -/
def scanSymbol (image : ElfImage) (symbols : SymbolTables CharPtr) (sym : ElfSym) :
    Loading (SymbolTables CharPtr) := do
  let symname ← lift (stringOf image.tables.strtab sym.stName)
  let offset := (sym.stValue + 2 ^ 64 - image.baseAddr) % 2 ^ 64
  match readLabel symname with
  | some (.dcj string) => do
      let name ← spInternString string
      return { symbols with rad := symbols.rad ++ [⟨name, offset⟩] }
  | some (.icj string) => do
      let name ← spInternString string
      return { symbols with rai := symbols.rai ++ [⟨name, offset⟩] }
  | some (.addrTaken string) => do
      let name ← spInternString string
      let atFunc ← lift (dictAdd symbols.atFunc offset name)
      return { symbols with atFunc := atFunc }
  | some (.landingPad string) => do
      let name ← spInternString string
      return { symbols with
        lp := symbols.lp ++ [offset]
        flp := gAddDirectedEdge symbols.flp name offset }
  | none =>
      if "__mcfi_bary_".toList.isPrefixOf symname then do
        let name ← spInternString (symname.drop 12)
        return { symbols with
          icfsyms := symbols.icfsyms ++ [⟨name, symbols.bidSlot⟩]
          bidSlot := (symbols.bidSlot + 8) % 2 ^ 32 }
      else if sym.isFunc && sym.isDefined then do
        let name ← spInternString symname
        return { symbols with funcsyms := symbols.funcsyms ++ [⟨name, offset⟩] }
      else
        return symbols

/-- `load_mcfi_metadata`, the loop over the dynamic symbols, as far as it interns. -/
def internDynamic (image : ElfImage) (sym : ElfSym) : Loading Unit :=
  if sym.isGlobal && sym.isFunc && sym.isDefined then do
    let fname ← lift (stringOf image.tables.dynstr sym.stName)
    let _ ← spInternString fname
    return ()
  else
    return ()

/-- `load_mcfi_metadata`, the body of the loop over the PLT entries. -/
def scanPlt (image : ElfImage) (symbols : SymbolTables CharPtr) (entry : Nat × Nat) :
    Loading (SymbolTables CharPtr) := do
  match image.tables.dynsym[entry.1]? with
  | none => lift (.error (.pageFault "load_mcfi_metadata"))
  | some sym => do
      let string ← lift (stringOf image.tables.dynstr sym.stName)
      let name ← spInternString string
      let size := if image.tables.instrumented then 32 else 16
      return { symbols with
        funcsyms := symbols.funcsyms ++
          [⟨name, image.tables.pltOffset + (entry.2 + 1) * size⟩] }

/-- `load_mcfi_metadata`. -/
def loadMcfiMetadata (bidSlot : Nat) (image : ElfImage) : Loading LoadedModule := do
  let names ← image.loopSections.foldlM readSection {}
  let (names, symbols) ← addSpecialFunctions image bidSlot names
  let _ ← spInternString "__patch_call".toList
  let _ ← spInternString "__patch_entry".toList
  let symbols ← image.tables.sym.foldlM (scanSymbol image) symbols
  image.tables.dynsym.forM (internDynamic image)
  let symbols ← image.tables.relaplt.zipIdx.foldlM (scanPlt image) symbols
  return {
    icfs := names.icfs
    functions := names.functions
    hierarchy := names.hierarchy
    aliases := names.aliases
    fatsInCode := names.fatsInCode
    fatsInData := names.fatsInData
    fats := mergeDicts (mergeDicts ∅ names.fatsInCode) names.fatsInData
    vtable := names.vtable
    symbols := symbols }

end Loading

end Pointers

section Records

/-- The records of the metadata sections, with strings for names. -/
structure SectionRecords where
  icfs : List ParsedIcf := []
  functions : List ParsedFunction := []
  ctor : OrdDict Text Text := ∅
  hierarchy : ClassTables := ⟨∅, ∅⟩
  aliases : LinkMap Text Text := ∅
  fatsInCode : KeySet Text := ∅
  fatsInData : KeySet Text := ∅
  vtable : OrdDict Text (List Text) := ∅

/-- The records of a module, with strings for names. -/
structure ModuleRecords where
  icfs : List ParsedIcf
  functions : List ParsedFunction
  hierarchy : ClassTables
  aliases : LinkMap Text Text
  fatsInCode : KeySet Text
  fatsInData : KeySet Text
  fats : KeySet Text
  vtable : OrdDict Text (List Text)
  symbols : SymbolTables Text

/-- The records of a section. -/
def sectionRecords (records : SectionRecords) (elfSection : ElfSection) :
    Rt SectionRecords :=
  let content := elfSection.content
  let behind := elfSection.behind
  let fuel := content.length + 1
  if elfSection.shname = ".MCFIIndirectCalls".toList then do
    let (icfs, _) ← parseIcfs.loop behind fuel (content ++ behind) records.icfs
    return { records with icfs := icfs }
  else if elfSection.shname = ".MCFIFuncInfo".toList then do
    let (tables, _) ← parseFunctions.loop behind fuel (content ++ behind)
      ⟨records.functions, records.ctor, none⟩
    return { records with functions := tables.functions, ctor := tables.ctor }
  else if elfSection.shname = ".MCFICHA".toList then do
    let (hierarchy, _) ← parseCha.loop behind fuel (content ++ behind) records.hierarchy
    return { records with hierarchy := hierarchy }
  else if elfSection.shname = ".MCFIAliases".toList then do
    let (aliases, _) ← parseAliases content behind records.aliases
    return { records with aliases := aliases }
  else if elfSection.shname = ".MCFIAddrTaken".toList then do
    let (fats, _) ← parseFats content behind records.fatsInData
    return { records with fatsInData := fats }
  else if elfSection.shname = ".MCFIAddrTakenInCode".toList then do
    let (fats, _) ← parseFats content behind records.fatsInCode
    return { records with fatsInCode := fats }
  else if elfSection.shname = ".MCFIVtable".toList then do
    let (vtable, _) ← parseVtable.loop behind fuel (content ++ behind) records.vtable
    return { records with vtable := vtable }
  else
    return records

/-- The records of the entry point and the personality routine of an executable. -/
def specialRecords (image : ElfImage) (bidSlot : Nat) (records : SectionRecords) :
    SectionRecords × SymbolTables Text :=
  if image.eType = etExec then
    let entry := "__exe_elf_entry".toList
    let personality := "__gxx_personality_v0".toList
    ({ records with
        functions := records.functions ++
          [{ allocFunction entry with type := some "ExeElfEntry".toList },
            { allocFunction personality with
              type := some
                "i32!i32@i32@i64@%struct._Unwind_Exception*@%struct._Unwind_Context*@".toList }]
        fatsInData := (records.fatsInData.insertNew entry ()).insertNew personality () },
      { bidSlot := bidSlot
        funcsyms := [⟨entry, (image.eEntry + 2 ^ 64 - image.baseAddr) % 2 ^ 64⟩] })
  else
    (records, { bidSlot := bidSlot })

/-- The record of a symbol. -/
def symbolRecord (image : ElfImage) (symbols : SymbolTables Text) (sym : ElfSym) :
    Rt (SymbolTables Text) := do
  let symname ← stringOf image.tables.strtab sym.stName
  let offset := (sym.stValue + 2 ^ 64 - image.baseAddr) % 2 ^ 64
  match readLabel symname with
  | some (.dcj name) => return { symbols with rad := symbols.rad ++ [⟨name, offset⟩] }
  | some (.icj name) => return { symbols with rai := symbols.rai ++ [⟨name, offset⟩] }
  | some (.addrTaken name) => do
      let atFunc ← dictAdd symbols.atFunc offset name
      return { symbols with atFunc := atFunc }
  | some (.landingPad name) =>
      return { symbols with
        lp := symbols.lp ++ [offset]
        flp := gAddDirectedEdge symbols.flp name offset }
  | none =>
      if "__mcfi_bary_".toList.isPrefixOf symname then
        return { symbols with
          icfsyms := symbols.icfsyms ++ [⟨symname.drop 12, symbols.bidSlot⟩]
          bidSlot := (symbols.bidSlot + 8) % 2 ^ 32 }
      else if sym.isFunc && sym.isDefined then
        return { symbols with funcsyms := symbols.funcsyms ++ [⟨symname, offset⟩] }
      else
        return symbols

/-- The record of a PLT entry. -/
def pltRecord (image : ElfImage) (symbols : SymbolTables Text) (entry : Nat × Nat) :
    Rt (SymbolTables Text) := do
  match image.tables.dynsym[entry.1]? with
  | none => .error (.pageFault "load_mcfi_metadata")
  | some sym => do
      let name ← stringOf image.tables.dynstr sym.stName
      let size := if image.tables.instrumented then 32 else 16
      return { symbols with
        funcsyms := symbols.funcsyms ++
          [⟨name, image.tables.pltOffset + (entry.2 + 1) * size⟩] }

/-- The records of a module. -/
def moduleRecords (bidSlot : Nat) (image : ElfImage) : Rt ModuleRecords := do
  let records ← image.loopSections.foldlM sectionRecords {}
  let (records, symbols) := specialRecords image bidSlot records
  let symbols ← image.tables.sym.foldlM (symbolRecord image) symbols
  let symbols ← image.tables.relaplt.zipIdx.foldlM (pltRecord image) symbols
  return {
    icfs := records.icfs
    functions := records.functions
    hierarchy := records.hierarchy
    aliases := records.aliases
    fatsInCode := records.fatsInCode
    fatsInData := records.fatsInData
    fats := mergeDicts (mergeDicts ∅ records.fatsInCode) records.fatsInData
    vtable := records.vtable
    symbols := symbols }

end Records

section Lookup

/-- The tables of names. -/
inductive NameTable where
  | fats
  | fatsInCode
  | fatsInData
  | functionNames
  | functionTypes
  | functionClasses
  | functionMethods
  | functionNodes
  | icfIds
  | icfNames
  | classes
  | methods
  | cha
  | aliases
  | vtables
  | vtableMethods
  | rad
  | rai
  | takenAddresses
  | landingPads
  | icfsyms
  | funcsyms
  deriving DecidableEq, Repr

/-- The names in the type of an indirect call. -/
def LoadedIcfType.names : LoadedIcfType → List CharPtr
  | virtualMethodCall className methodName => [className, methodName]
  | pointerToMethodCall className _ type => [className, type]
  | normalCall type => [type]

/-- The pointers in a table. -/
def LoadedModule.names (m : LoadedModule) : NameTable → List CharPtr
  | .fats => m.fats.keys
  | .fatsInCode => m.fatsInCode.keys
  | .fatsInData => m.fatsInData.keys
  | .functionNames => m.functions.map LoadedFunction.name
  | .functionTypes => m.functions.filterMap LoadedFunction.type
  | .functionClasses => m.functions.filterMap LoadedFunction.className
  | .functionMethods => m.functions.filterMap LoadedFunction.methodName
  | .functionNodes => m.functions.flatMap fun f => f.returns ++ f.dtails ++ f.itails
  | .icfIds => m.icfs.map LoadedIcf.id
  | .icfNames => m.icfs.flatMap fun icf => icf.ity.names
  | .classes => m.hierarchy.classes.keys
  | .methods => m.hierarchy.classes.entries.flatMap fun entry => entry.2.keys
  | .cha => m.hierarchy.cha.keys
  | .aliases => m.aliases.keys
  | .vtables => m.vtable.keys
  | .vtableMethods => m.vtable.entries.flatMap Prod.snd
  | .rad => m.symbols.rad.map SymbolOf.name
  | .rai => m.symbols.rai.map SymbolOf.name
  | .takenAddresses => m.symbols.atFunc.entries.map Prod.snd
  | .landingPads => m.symbols.flp.keys
  | .icfsyms => m.symbols.icfsyms.map SymbolOf.name
  | .funcsyms => m.symbols.funcsyms.map SymbolOf.name

/-- The strings that the records of a table name. -/
def ModuleRecords.names (m : ModuleRecords) : NameTable → List Text
  | .fats => m.fats.keys
  | .fatsInCode => m.fatsInCode.keys
  | .fatsInData => m.fatsInData.keys
  | .functionNames => m.functions.map ParsedFunction.name
  | .functionTypes => m.functions.filterMap ParsedFunction.type
  | .functionClasses => m.functions.filterMap ParsedFunction.className
  | .functionMethods => m.functions.filterMap ParsedFunction.methodName
  | .functionNodes => m.functions.flatMap fun f => f.returns ++ f.dtails ++ f.itails
  | .icfIds => m.icfs.map ParsedIcf.id
  | .icfNames => m.icfs.flatMap fun icf => icf.ity.names
  | .classes => m.hierarchy.classes.keys
  | .methods => m.hierarchy.classes.entries.flatMap fun entry => entry.2.keys
  | .cha => m.hierarchy.cha.keys
  | .aliases => m.aliases.keys
  | .vtables => m.vtable.keys
  | .vtableMethods => m.vtable.entries.flatMap Prod.snd
  | .rad => m.symbols.rad.map SymbolOf.name
  | .rai => m.symbols.rai.map SymbolOf.name
  | .takenAddresses => m.symbols.atFunc.entries.map Prod.snd
  | .landingPads => m.symbols.flp.keys
  | .icfsyms => m.symbols.icfsyms.map SymbolOf.name
  | .funcsyms => m.symbols.funcsyms.map SymbolOf.name

/-- What `sp_intern_string` returns. -/
def internedPtr (pool : StringPool) (text : Text) : CharPtr :=
  .pooled (pool.intern text).1

theorem spInternString_eq (pool : StringPool) (text : Text) :
    Loading.spInternString text pool = .ok (internedPtr pool text, (pool.intern text).2) :=
  rfl

/-- The string behind a pointer. -/
def CharPtr.data (pool : StringPool) : CharPtr → Option Text
  | .pooled handle => pool.values[handle]?
  | .literal text => some text

/--
Every pointer of a table is interned, and an interned string is found in the table
exactly when a record names it.
-/
structure Findable (pool : StringPool) (stored : List CharPtr) (named : List Text) : Prop where
  interned : ∀ ptr ∈ stored, ∃ text, ptr.data pool = some text ∧ internedPtr pool text = ptr
  found : ∀ text, internedPtr pool text ∈ stored ↔ text ∈ named

/-- All names of a module can be found. -/
def NamesInterned (bidSlot : Nat) (image : ElfImage) (pool : StringPool)
    (m : LoadedModule) : Prop :=
  ∃ records, moduleRecords bidSlot image = .ok records ∧
    ∀ table, Findable pool (m.names table) (records.names table)

end Lookup

section Lists

variable {pool : StringPool} {stored : List CharPtr} {named : List Text}

theorem Names.internedPtr_eq {ptr : CharPtr} {text : Text} (names : Names pool ptr text) :
    internedPtr pool text = ptr := by
  obtain ⟨handle, rfl, holds⟩ := names
  rw [internedPtr, holds.intern]

/-- What an element of a list is related to. -/
private theorem exists_names_of_mem {ptr : CharPtr} (related : NameLists pool stored named)
    (listed : ptr ∈ stored) : ∃ text ∈ named, Names pool ptr text := by
  induction related with
  | nil => exact nomatch listed
  | cons names _ inductionHypothesis =>
      rcases List.mem_cons.mp listed with rfl | inRest
      · exact ⟨_, List.mem_cons_self, names⟩
      · obtain ⟨text, inTexts, found⟩ := inductionHypothesis inRest
        exact ⟨text, List.mem_cons_of_mem _ inTexts, found⟩

private theorem exists_ptr_of_mem {text : Text} (related : NameLists pool stored named)
    (listed : text ∈ named) : ∃ ptr ∈ stored, Names pool ptr text := by
  induction related with
  | nil => exact nomatch listed
  | cons names _ inductionHypothesis =>
      rcases List.mem_cons.mp listed with rfl | inRest
      · exact ⟨_, List.mem_cons_self, names⟩
      · obtain ⟨ptr, inStored, found⟩ := inductionHypothesis inRest
        exact ⟨ptr, List.mem_cons_of_mem _ inStored, found⟩

/-- Elements of the pool can be found by their strings. -/
theorem findable_of_nameLists (related : NameLists pool stored named) :
    Findable pool stored named where
  interned := by
    intro ptr listed
    obtain ⟨text, _, names⟩ := exists_names_of_mem related listed
    refine ⟨text, ?_, names.internedPtr_eq⟩
    obtain ⟨handle, rfl, holds⟩ := names
    exact holds
  found := by
    intro text
    constructor
    · intro listed
      obtain ⟨other, inNamed, handle, same, holds⟩ := exists_names_of_mem related listed
      -- the handle that is given now was given for the other string before
      have known : text ∈ pool.values := by
        by_contra fresh
        have place : (pool.intern text).1 = handle := CharPtr.pooled.inj same
        rw [intern_of_not_mem fresh] at place
        exact absurd (place ▸ holds.lt) (Nat.lt_irrefl _)
      have given := holds_intern pool text
      have kept : (pool.intern text).2 = pool := by
        unfold InternPool.intern
        rw [dif_pos known]
      rw [kept, CharPtr.pooled.inj same] at given
      rw [(biUnique_holds pool).2 given holds]
      exact inNamed
    · intro listed
      obtain ⟨ptr, inStored, names⟩ := exists_ptr_of_mem related listed
      rw [names.internedPtr_eq]
      exact inStored

/-- A literal cannot be found. -/
theorem not_findable_of_literal {text : Text} (listed : CharPtr.literal text ∈ stored) :
    ¬ Findable pool stored named := by
  intro findable
  obtain ⟨_, _, interned⟩ := findable.interned _ listed
  exact nomatch interned

end Lists

/-- The section names with the strings of the records. -/
structure SectionNames.NamedAs (pool : StringPool) (names : SectionNames)
    (records : SectionRecords) : Prop where
  icfs : IcfLists pool names.icfs records.icfs
  functions : List.Forall₂ (LoadedFunction.NamedAs pool) names.functions records.functions
  ctor : OrdDict.Related (Names pool) (Names pool) names.ctor records.ctor
  hierarchy : names.hierarchy.NamedAs pool records.hierarchy
  aliases : NameGraphs pool names.aliases records.aliases
  fatsInCode : NameSets pool names.fatsInCode records.fatsInCode
  fatsInData : NameSets pool names.fatsInData records.fatsInData
  vtable : VtableNames pool names.vtable records.vtable

section Sections

variable {pool later : StringPool}

theorem SectionNames.NamedAs.extend {names : SectionNames} {records : SectionRecords}
    (named : names.NamedAs pool records) (grows : pool.Extends later) :
    names.NamedAs later records where
  icfs := List.Forall₂.imp
    (fun _ _ (icf : LoadedIcf.NamedAs pool _ _) => icf.extend grows) named.icfs
  functions := named.functions.imp fun _ _ function => function.extend grows
  ctor := named.ctor.mono (fun _ _ ptr => ptr.extend grows) fun _ _ ptr => ptr.extend grows
  hierarchy := named.hierarchy.extend grows
  aliases := named.aliases.extend grows
  fatsInCode := named.fatsInCode.extend grows
  fatsInData := named.fatsInData.extend grows
  vtable := named.vtable.extend grows

theorem namedAs_noSections (pool : StringPool) :
    SectionNames.NamedAs pool {} {} where
  icfs := List.Forall₂.nil
  functions := List.Forall₂.nil
  ctor := OrdDict.Related.empty
  hierarchy := ⟨OrdDict.Related.empty, OrdDict.Related.empty⟩
  aliases := OrdDict.Related.empty
  fatsInCode := OrdDict.Related.empty
  fatsInData := OrdDict.Related.empty
  vtable := OrdDict.Related.empty

/-- A section is read into names of its records. -/
theorem follows_readSection (elfSection : ElfSection) {names : SectionNames}
    {records : SectionRecords} (named : names.NamedAs pool records) :
    Follows pool (Loading.readSection names elfSection) (sectionRecords records elfSection)
      SectionNames.NamedAs := by
  unfold Loading.readSection sectionRecords
  dsimp only
  split
  next =>
    apply Follows.bind (follows_parseIcfs _ _ named.icfs)
    rintro later ⟨icfs, _⟩ ⟨parsed, _⟩ grows ⟨icfsNamed, -⟩
    exact Follows.pure { named.extend grows with icfs := icfsNamed }
  next =>
    split
    next =>
      apply Follows.bind (follows_parseFunctions _ _ named.functions named.ctor)
      rintro later ⟨tables, _⟩ ⟨parsed, _⟩ grows ⟨tablesNamed, -⟩
      exact Follows.pure { named.extend grows with
        functions := tablesNamed.functions, ctor := tablesNamed.ctor }
    next =>
      split
      next =>
        apply Follows.bind (follows_parseCha _ _ named.hierarchy)
        rintro later ⟨hierarchy, _⟩ ⟨parsed, _⟩ grows ⟨hierarchyNamed, -⟩
        exact Follows.pure { named.extend grows with hierarchy := hierarchyNamed }
      next =>
        split
        next =>
          apply Follows.bind (follows_parseAliases _ _ named.aliases)
          rintro later ⟨aliases, _⟩ ⟨parsed, _⟩ grows ⟨aliasesNamed, -⟩
          exact Follows.pure { named.extend grows with aliases := aliasesNamed }
        next =>
          split
          next =>
            apply Follows.bind (follows_parseFats _ _ named.fatsInData)
            rintro later ⟨fats, _⟩ ⟨parsed, _⟩ grows ⟨fatsNamed, -⟩
            exact Follows.pure { named.extend grows with fatsInData := fatsNamed }
          next =>
            split
            next =>
              apply Follows.bind (follows_parseFats _ _ named.fatsInCode)
              rintro later ⟨fats, _⟩ ⟨parsed, _⟩ grows ⟨fatsNamed, -⟩
              exact Follows.pure { named.extend grows with fatsInCode := fatsNamed }
            next =>
              split
              next =>
                apply Follows.bind (follows_parseVtable _ _ named.vtable)
                rintro later ⟨vtable, _⟩ ⟨parsed, _⟩ grows ⟨vtableNamed, -⟩
                exact Follows.pure { named.extend grows with vtable := vtableNamed }
              next => exact Follows.pure named

end Sections

/-- Symbols with their names. -/
structure SymbolOf.NamedAs (pool : StringPool) (symbol : SymbolOf CharPtr)
    (record : SymbolOf Text) : Prop where
  name : Names pool symbol.name record.name
  offset : symbol.offset = record.offset

/-- Lists of symbols with their names. -/
def SymbolLists (pool : StringPool) : List (SymbolOf CharPtr) → List (SymbolOf Text) → Prop :=
  List.Forall₂ (SymbolOf.NamedAs pool)

/-- The tables of symbols with their names. -/
structure SymbolTables.NamedAs (pool : StringPool) (symbols : SymbolTables CharPtr)
    (records : SymbolTables Text) : Prop where
  rad : SymbolLists pool symbols.rad records.rad
  rai : SymbolLists pool symbols.rai records.rai
  atFunc : OrdDict.Related (· = ·) (Names pool) symbols.atFunc records.atFunc
  lp : symbols.lp = records.lp
  flp : LinkMap.Related (Names pool) (· = ·) symbols.flp records.flp
  icfsyms : SymbolLists pool symbols.icfsyms records.icfsyms
  funcsyms : SymbolLists pool symbols.funcsyms records.funcsyms
  bidSlot : symbols.bidSlot = records.bidSlot

section Symbols

variable {pool later : StringPool}

theorem SymbolLists.extend {symbols : List (SymbolOf CharPtr)}
    {records : List (SymbolOf Text)} (named : SymbolLists pool symbols records)
    (grows : pool.Extends later) : SymbolLists later symbols records :=
  List.Forall₂.imp
    (fun _ _ (symbol : SymbolOf.NamedAs pool _ _) =>
      ⟨symbol.name.extend grows, symbol.offset⟩) named

theorem SymbolLists.push {symbols : List (SymbolOf CharPtr)} {records : List (SymbolOf Text)}
    (named : SymbolLists pool symbols records) {ptr : CharPtr} {text : Text}
    (names : Names pool ptr text) (offset : Nat) :
    SymbolLists pool (symbols ++ [⟨ptr, offset⟩]) (records ++ [⟨text, offset⟩]) :=
  List.rel_append named (List.Forall₂.cons ⟨names, rfl⟩ List.Forall₂.nil)

theorem SymbolTables.NamedAs.extend {symbols : SymbolTables CharPtr}
    {records : SymbolTables Text} (named : symbols.NamedAs pool records)
    (grows : pool.Extends later) : symbols.NamedAs later records where
  rad := named.rad.extend grows
  rai := named.rai.extend grows
  atFunc := named.atFunc.mono (fun _ _ => id) fun _ _ names => names.extend grows
  lp := named.lp
  flp := named.flp.mono (fun _ _ names => names.extend grows) fun _ _ => id
  icfsyms := named.icfsyms.extend grows
  funcsyms := named.funcsyms.extend grows
  bidSlot := named.bidSlot

theorem namedAs_noSymbols (pool : StringPool) (bidSlot : Nat) :
    SymbolTables.NamedAs pool { bidSlot := bidSlot } { bidSlot := bidSlot } where
  rad := List.Forall₂.nil
  rai := List.Forall₂.nil
  atFunc := OrdDict.Related.empty
  lp := rfl
  flp := OrdDict.Related.empty
  icfsyms := List.Forall₂.nil
  funcsyms := List.Forall₂.nil
  bidSlot := rfl

private theorem biUnique_eq {α : Type} : Relator.BiUnique fun first second : α => first = second :=
  ⟨fun _ _ _ left right => left.trans right.symm,
    fun _ _ _ left right => left.symm.trans right⟩

theorem follows_scanSymbol (image : ElfImage) (sym : ElfSym) {symbols : SymbolTables CharPtr}
    {records : SymbolTables Text} (named : symbols.NamedAs pool records) :
    Follows pool (Loading.scanSymbol image symbols sym) (symbolRecord image records sym)
      SymbolTables.NamedAs := by
  unfold Loading.scanSymbol symbolRecord
  apply Follows.lift_bind_same
  intro symname
  dsimp only
  split
  next string _ =>
    apply follows_spInternString
    intro later name grows names
    have kept := named.extend grows
    exact Follows.pure { kept with rad := kept.rad.push names _ }
  next string _ =>
    apply follows_spInternString
    intro later name grows names
    have kept := named.extend grows
    exact Follows.pure { kept with rai := kept.rai.push names _ }
  next string _ =>
    apply follows_spInternString
    intro later name grows names
    have kept := named.extend grows
    apply Follows.lift_bind
    intro atFunc added
    obtain ⟨fresh, rfl⟩ := dictAdd_eq_ok.mp added
    have otherFresh := mt (kept.atFunc.mem_iff biUnique_eq rfl).mpr fresh
    exact ⟨_, dictAdd_eq_ok.mpr ⟨otherFresh, rfl⟩, Follows.pure { kept with
      atFunc := kept.atFunc.insertNew biUnique_eq rfl names }⟩
  next string _ =>
    apply follows_spInternString
    intro later name grows names
    have kept := named.extend grows
    exact Follows.pure { kept with
      lp := congrArg (· ++ [_]) kept.lp
      flp := LinkMap.Related.link (biUnique_names later) biUnique_eq kept.flp names rfl }
  next _ =>
    split
    next =>
      apply follows_spInternString
      intro later name grows names
      have kept := named.extend grows
      rw [kept.bidSlot]
      exact Follows.pure { kept with
        icfsyms := kept.icfsyms.push names _, bidSlot := rfl }
    next =>
      split
      next =>
        apply follows_spInternString
        intro later name grows names
        have kept := named.extend grows
        exact Follows.pure { kept with funcsyms := kept.funcsyms.push names _ }
      next => exact Follows.pure named

theorem follows_scanPlt (image : ElfImage) (entry : Nat × Nat)
    {symbols : SymbolTables CharPtr} {records : SymbolTables Text}
    (named : symbols.NamedAs pool records) :
    Follows pool (Loading.scanPlt image symbols entry) (pltRecord image records entry)
      SymbolTables.NamedAs := by
  unfold Loading.scanPlt pltRecord
  split
  next => exact Follows.stop _
  next sym _ =>
    apply Follows.lift_bind_same
    intro string
    apply follows_spInternString
    intro later name grows names
    have kept := named.extend grows
    exact Follows.pure { kept with funcsyms := kept.funcsyms.push names _ }

/-- The loop over the dynamic symbols only adds to the pool. -/
theorem internDynamic_silent (image : ElfImage) (syms : List ElfSym) :
    Follows pool (syms.forM (Loading.internDynamic image)) (.ok ()) fun _ _ _ => True := by
  induction syms generalizing pool with
  | nil => exact Follows.pure trivial
  | cons sym rest inductionHypothesis =>
      apply Follows.silent_bind
      · unfold Loading.internDynamic
        split
        next =>
          apply Follows.lift_silent
          intro fname _
          apply follows_spInternString
          intro later _ _ _
          exact Follows.pure trivial
        next => exact Follows.pure trivial
      · intro later _ _
        exact inductionHypothesis

end Symbols

/-- A loaded module with the names of its records. -/
structure LoadedModule.NamedAs (pool : StringPool) (m : LoadedModule)
    (records : ModuleRecords) : Prop where
  icfs : IcfLists pool m.icfs records.icfs
  functions : List.Forall₂ (LoadedFunction.NamedAs pool) m.functions records.functions
  hierarchy : m.hierarchy.NamedAs pool records.hierarchy
  aliases : NameGraphs pool m.aliases records.aliases
  fatsInCode : NameSets pool m.fatsInCode records.fatsInCode
  fatsInData : NameSets pool m.fatsInData records.fatsInData
  fats : NameSets pool m.fats records.fats
  vtable : VtableNames pool m.vtable records.vtable
  symbols : m.symbols.NamedAs pool records.symbols

section Modules

variable {pool : StringPool}

/-- `merge_dicts` keeps names. -/
theorem NameSets.mergeDicts {fats : KeySet CharPtr} {texts : KeySet Text}
    {incoming : KeySet CharPtr} {incomingTexts : KeySet Text}
    (related : NameSets pool fats texts) (incomingRelated : NameSets pool incoming incomingTexts) :
    NameSets pool (mergeDicts fats incoming) (mergeDicts texts incomingTexts) := by
  unfold Mcfi.mergeDicts
  unfold NameSets OrdDict.Related at incomingRelated
  generalize incoming.entries = entries at incomingRelated
  generalize incomingTexts.entries = others at incomingRelated
  induction incomingRelated generalizing fats texts with
  | nil => exact related
  | cons pair _ inductionHypothesis =>
      rw [List.foldl_cons, List.foldl_cons]
      exact inductionHypothesis
        (OrdDict.Related.insertNew (biUnique_names pool) related pair.1 trivial)

/-- A shared library is loaded with the names of its records. -/
theorem follows_loadMcfiMetadata (bidSlot : Nat) {image : ElfImage}
    (notExec : image.eType ≠ etExec) :
    Follows pool (Loading.loadMcfiMetadata bidSlot image) (moduleRecords bidSlot image)
      LoadedModule.NamedAs := by
  unfold Loading.loadMcfiMetadata moduleRecords
  apply Follows.bind
    (Follows.foldlM (fun _ elfSection _ _ kept => follows_readSection elfSection kept)
      image.loopSections (namedAs_noSections pool))
  intro sectionPool names records _ sectionsNamed
  unfold Loading.addSpecialFunctions specialRecords
  rw [if_neg notExec, if_neg notExec, pure_bind]
  apply follows_spInternString
  intro callPool _ callGrows _
  apply follows_spInternString
  intro entryPool _ entryGrows _
  have beforeSymbols := (sectionsNamed.extend callGrows).extend entryGrows
  apply Follows.bind
    (Follows.foldlM (fun _ sym _ _ kept => follows_scanSymbol image sym kept)
      image.tables.sym (namedAs_noSymbols entryPool bidSlot))
  intro symbolPool symbols symbolRecords symbolGrows symbolsNamed
  apply Follows.silent_bind (internDynamic_silent image _)
  intro dynamicPool _ dynamicGrows
  apply Follows.bind
    (Follows.foldlM (fun _ entry _ _ kept => follows_scanPlt image entry kept)
      image.tables.relaplt.zipIdx (symbolsNamed.extend dynamicGrows))
  intro later symbols symbolRecords pltGrows pltNamed
  have kept := ((beforeSymbols.extend symbolGrows).extend dynamicGrows).extend pltGrows
  apply Follows.pure
  exact {
    icfs := kept.icfs
    functions := kept.functions
    hierarchy := kept.hierarchy
    aliases := kept.aliases
    fatsInCode := kept.fatsInCode
    fatsInData := kept.fatsInData
    fats := NameSets.mergeDicts (NameSets.mergeDicts OrdDict.Related.empty kept.fatsInCode)
      kept.fatsInData
    vtable := kept.vtable
    symbols := pltNamed }

variable {m : LoadedModule} {records : ModuleRecords}

/-- Lists of records with related names have related lists of names. -/
private theorem map_related {α β : Type} {related : α → β → Prop} {first : α → CharPtr}
    {second : β → Text} {left : List α} {right : List β}
    (names : ∀ value other, related value other → Names pool (first value) (second other))
    (lists : List.Forall₂ related left right) :
    NameLists pool (left.map first) (right.map second) :=
  List.rel_map (fun _ _ pair => names _ _ pair) lists

private theorem filterMap_related {α β : Type} {related : α → β → Prop}
    {first : α → Option CharPtr} {second : β → Option Text} {left : List α} {right : List β}
    (names : ∀ value other, related value other →
      MaybeNames pool (first value) (second other))
    (lists : List.Forall₂ related left right) :
    NameLists pool (left.filterMap first) (right.filterMap second) :=
  List.rel_filterMap (fun _ _ pair => names _ _ pair) lists

private theorem flatMap_related {α β : Type} {related : α → β → Prop}
    {first : α → List CharPtr} {second : β → List Text} {left : List α} {right : List β}
    (names : ∀ value other, related value other →
      NameLists pool (first value) (second other))
    (lists : List.Forall₂ related left right) :
    NameLists pool (left.flatMap first) (right.flatMap second) :=
  List.rel_flatMap lists fun _ _ pair => names _ _ pair

private theorem LoadedIcfType.NamedAs.names {ity : LoadedIcfType} {parsed : ParsedIcfType}
    (named : ity.NamedAs pool parsed) : NameLists pool ity.names parsed.names := by
  cases named with
  | virtualMethodCall classNames methodNames =>
      exact .cons classNames (.cons methodNames .nil)
  | pointerToMethodCall classNames _ typeNames =>
      exact .cons classNames (.cons typeNames .nil)
  | normalCall typeNames => exact .cons typeNames .nil

/-- Each table holds the pool's elements for the strings of its records. -/
theorem LoadedModule.NamedAs.names (named : m.NamedAs pool records) (table : NameTable) :
    NameLists pool (m.names table) (records.names table) := by
  cases table with
  | fats => exact named.fats.keys_forall₂
  | fatsInCode => exact named.fatsInCode.keys_forall₂
  | fatsInData => exact named.fatsInData.keys_forall₂
  | functionNames => exact map_related (fun _ _ f => f.name) named.functions
  | functionTypes => exact filterMap_related (fun _ _ f => f.type) named.functions
  | functionClasses => exact filterMap_related (fun _ _ f => f.className) named.functions
  | functionMethods => exact filterMap_related (fun _ _ f => f.methodName) named.functions
  | functionNodes =>
      exact flatMap_related
        (fun _ _ f => List.rel_append (List.rel_append f.returns f.dtails) f.itails)
        named.functions
  | icfIds => exact map_related (fun _ _ icf => icf.id) named.icfs
  | icfNames => exact flatMap_related (fun _ _ icf => icf.ity.names) named.icfs
  | classes => exact named.hierarchy.classes.keys_forall₂
  | methods =>
      exact flatMap_related (fun _ _ entry => entry.2.keys_forall₂) named.hierarchy.classes
  | cha => exact named.hierarchy.cha.keys_forall₂
  | aliases => exact named.aliases.keys_forall₂
  | vtables => exact named.vtable.keys_forall₂
  | vtableMethods => exact flatMap_related (fun _ _ entry => entry.2) named.vtable
  | rad => exact map_related (fun _ _ symbol => symbol.name) named.symbols.rad
  | rai => exact map_related (fun _ _ symbol => symbol.name) named.symbols.rai
  | takenAddresses => exact named.symbols.atFunc.values_forall₂
  | landingPads => exact named.symbols.flp.keys_forall₂
  | icfsyms => exact map_related (fun _ _ symbol => symbol.name) named.symbols.icfsyms
  | funcsyms => exact map_related (fun _ _ symbol => symbol.name) named.symbols.funcsyms

end Modules

section Executables

variable {pool later : StringPool}

/-- A sequence returns when both parts do. -/
private theorem run_bind_eq_ok {α β : Type} {call : Loading α} {next : α → Loading β}
    {result : β × StringPool} :
    (call >>= next) pool = .ok result ↔
      ∃ value middle, call pool = .ok (value, middle) ∧ next value middle = .ok result := by
  change (call pool >>= fun step => next step.1 step.2) = _ ↔ _
  rw [bind_eq_ok]
  exact ⟨fun ⟨⟨value, middle⟩, first, rest⟩ => ⟨value, middle, first, rest⟩,
    fun ⟨value, middle, first, rest⟩ => ⟨(value, middle), first, rest⟩⟩

private theorem run_lift_eq_ok {α : Type} {call : Rt α} {result : α × StringPool} :
    Loading.lift call pool = .ok result ↔ call = .ok result.1 ∧ pool = result.2 := by
  change (call >>= fun value => Except.ok (value, pool)) = _ ↔ _
  rw [bind_eq_ok]
  constructor
  · rintro ⟨value, run, same⟩
    cases same
    exact ⟨run, rfl⟩
  · rintro ⟨run, rfl⟩
    exact ⟨result.1, run, rfl⟩

/-- The literal is among the functions that are added to an executable. -/
private theorem literal_of_special {image : ElfImage} {bidSlot : Nat}
    {names result : SectionNames} {symbols : SymbolTables CharPtr}
    (exec : image.eType = etExec)
    (run : Loading.addSpecialFunctions image bidSlot names pool =
      .ok ((result, symbols), later)) :
    CharPtr.literal "__gxx_personality_v0".toList ∈ result.fatsInData := by
  unfold Loading.addSpecialFunctions at run
  rw [if_pos exec] at run
  simp only [run_bind_eq_ok, run_lift_eq_ok] at run
  obtain ⟨_, _, _, _, _, _, _, _, _, _, _, _, _, _, _, fats, _, ⟨added, _⟩, run⟩ := run
  obtain ⟨_, stored⟩ := dictAdd_eq_ok.mp added
  cases run
  rw [← stored]
  exact OrdDict.mem_insertNew.mpr (Or.inl rfl)

/-- An executable is loaded with a name that is not interned. -/
theorem exec_stores_literal {image : ElfImage} {bidSlot : Nat} {m : LoadedModule}
    (exec : image.eType = etExec)
    (returned : Loading.loadMcfiMetadata bidSlot image pool = .ok (m, later)) :
    CharPtr.literal "__gxx_personality_v0".toList ∈ m.names .fatsInData := by
  unfold Loading.loadMcfiMetadata at returned
  simp only [run_bind_eq_ok] at returned
  obtain ⟨_, _, _, ⟨names, symbols⟩, _, special, _, _, _, _, _, _, _, _, _, _, _, _, _, _, _,
    done⟩ := returned
  cases done
  exact literal_of_special exec special

/--
The names of a loaded module can be found, in all its tables, exactly when it is no
executable.
-/
theorem names_interned_iff {image : ElfImage} {bidSlot : Nat} {m : LoadedModule}
    (returned : Loading.loadMcfiMetadata bidSlot image pool = .ok (m, later)) :
    NamesInterned bidSlot image later m ↔ image.eType ≠ etExec := by
  constructor
  · rintro ⟨records, _, findable⟩ exec
    exact not_findable_of_literal (exec_stores_literal exec returned) (findable .fatsInData)
  · intro notExec
    obtain ⟨_, records, recorded, named⟩ :=
      follows_loadMcfiMetadata bidSlot notExec m later returned
    exact ⟨records, recorded, fun table => findable_of_nameLists (named.names table)⟩

end Executables

section Files

/-- A shared library that takes the address of `f`. -/
private def takingLibrary : ElfImage where
  eType := 3
  eEntry := 0
  eShstrndx := 0
  sections := [⟨".shstrtab".toList, 0, [], [], [], []⟩,
    ⟨".MCFIAddrTaken".toList, 0, ['f', nul], [], [], []⟩]

/-- An executable without metadata. -/
private def plainExecutable : ElfImage where
  eType := etExec
  eEntry := 0x400100
  eShstrndx := 0
  sections := []

/-- The names of the library can be found, among them the one it has. -/
theorem takingLibrary_interned :
    ∃ m later, Loading.loadMcfiMetadata 0 takingLibrary InternPool.empty = .ok (m, later) ∧
      m.names .fats = [.pooled 0] ∧ NamesInterned 0 takingLibrary later m := by
  have returned : Loading.loadMcfiMetadata 0 takingLibrary InternPool.empty =
    .ok (_, _) := rfl
  exact ⟨_, _, returned, rfl, (names_interned_iff returned).mpr (by decide)⟩

/-- An executable's personality routine cannot be found by its interned name. -/
theorem personality_not_interned :
    ∃ m later, Loading.loadMcfiMetadata 0 plainExecutable InternPool.empty = .ok (m, later) ∧
      internedPtr later "__gxx_personality_v0".toList ∉ m.names .fats ∧
      ¬ NamesInterned 0 plainExecutable later m := by
  have returned : Loading.loadMcfiMetadata 0 plainExecutable InternPool.empty =
    .ok (_, _) := rfl
  refine ⟨_, _, returned, by decide, ?_⟩
  rintro ⟨_, _, findable⟩
  exact not_findable_of_literal (exec_stores_literal rfl returned) (findable .fatsInData)

end Files

end Mcfi
