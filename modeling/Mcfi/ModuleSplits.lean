import Mcfi.DuplicateKeys
import Mcfi.GraphGrowth

namespace Mcfi

open LinkMap

/-!
# Splitting a program into modules

The parsers unite what the records of one module say about a class, but
`merge_dicts` keeps the class table of the first module that has one and drops the
others.  So the merged tables are the union of the modules' exactly when the first
module that knows a class knows all of its methods.  Then the call graph has the same
components however the records are split, unless a stale attribute byte files a
function.
-/

section Records

/-- A metadata record, its strings interned. -/
inductive MetadataRecord where
  | branch (icf : Icf)
  | function (f : Function)
  | bases (subClass : Name) (superClasses : List Name)
  | methods (className : Name) (methods : List (Name × UInt8))
  | aliasOf (name aliasee : Name)
  | addrTaken (inCode : Bool) (name : Name)

/-- `parse_classes`, the body of its loop, on the table of the class. -/
def addClassMethod (methods : OrdDict Name UInt8) (method : Name × UInt8) :
    Rt (OrdDict Name UInt8) :=
  match dictFind methods method.1 with
  | none => dictAdd methods method.1 method.2
  | some attrs =>
      if attrs ≠ method.2 then
        .error (.quit "Duplicated method name %s in class %s\n")
      else
        .ok methods

/-- What the parsers of the sections make of one record. -/
def loadRecord (codeModule : CodeModule) : MetadataRecord → Rt CodeModule
  | .branch icf =>
      .ok { codeModule with icfs := codeModule.icfs ++ [icf] }
  | .function f =>
      .ok { codeModule with functions := codeModule.functions ++ [f] }
  | .bases subClass superClasses =>
      .ok { codeModule with
        cha := gAddEdges codeModule.cha (superClasses.map fun base => (subClass, base))
        chaUndirected := codeModule.chaUndirected.joinAll _ }
  | .methods className methods => do
      let table := (dictFind codeModule.classes className).getD ∅
      let table ← methods.foldlM addClassMethod table
      return { codeModule with
        classes := (codeModule.classes.insertNew className ∅).modify className
          fun _ => table }
  | .aliasOf name aliasee =>
      .ok { codeModule with
        aliases := gAddEdge codeModule.aliases name aliasee
        aliasesUndirected := codeModule.aliasesUndirected.join _ _ }
  | .addrTaken true name =>
      .ok { codeModule with fatsInCode := codeModule.fatsInCode.insertNew name () }
  | .addrTaken false name =>
      .ok { codeModule with fatsInData := codeModule.fatsInData.insertNew name () }

/-- `load_mcfi_metadata`, on the records of one module. -/
def loadRecords (records : List MetadataRecord) : Rt CodeModule := do
  let codeModule ← records.foldlM loadRecord allocCodeModule
  return { codeModule with
    fats := mergeDicts (mergeDicts codeModule.fats codeModule.fatsInCode)
      codeModule.fatsInData }

/-- A class table gives a method its attributes. -/
def InTable (classes : ClassTable) (className methodName : Name) (attrs : UInt8) :
    Prop :=
  ∃ methods, classes.find className = some methods ∧
    methods.find methodName = some attrs

/-- The records give a method its attributes. -/
def Mentions (records : List MetadataRecord) (className methodName : Name)
    (attrs : UInt8) : Prop :=
  ∃ methods, .methods className methods ∈ records ∧ (methodName, attrs) ∈ methods

/-- The records make a class inherit from another one. -/
def Inherits (records : List MetadataRecord) (subClass superClass : Name) : Prop :=
  ∃ superClasses, .bases subClass superClasses ∈ records ∧ superClass ∈ superClasses

/-- A module holds what its records say. -/
structure LoadedFrom (records : List MetadataRecord) (codeModule : CodeModule) :
    Prop where
  icfs : ∀ icf, icf ∈ codeModule.icfs ↔ .branch icf ∈ records
  functions : ∀ f, f ∈ codeModule.functions ↔ .function f ∈ records
  tables : ∀ className methodName attrs,
    InTable codeModule.classes className methodName attrs ↔
      Mentions records className methodName attrs
  cha : ∀ left right, Linked codeModule.cha left right ↔
    Inherits records left right ∨ Inherits records right left
  chaPopulated : Populated codeModule.cha
  aliases : ∀ left right, Linked codeModule.aliases left right ↔
    .aliasOf left right ∈ records ∨ .aliasOf right left ∈ records
  aliasesPopulated : Populated codeModule.aliases
  fats : ∀ name, name ∈ codeModule.fats ∨ name ∈ codeModule.fatsInCode ∨
      name ∈ codeModule.fatsInData ↔
    ∃ inCode, .addrTaken inCode name ∈ records

/-- What adding the methods of a record returns. -/
theorem foldlM_addClassMethod {methods : List (Name × UInt8)}
    {table result : OrdDict Name UInt8}
    (runs : methods.foldlM addClassMethod table = .ok result) (methodName : Name)
    (attrs : UInt8) :
    result.find methodName = some attrs ↔
      table.find methodName = some attrs ∨ (methodName, attrs) ∈ methods := by
  induction methods generalizing table with
  | nil =>
      cases runs
      simp
  | cons method rest inductionHypothesis =>
      rw [List.foldlM_cons] at runs
      obtain ⟨middle, first, later⟩ := bind_eq_ok.mp runs
      rw [inductionHypothesis later, List.mem_cons]
      have added : middle.find methodName = some attrs ↔
          table.find methodName = some attrs ∨ (methodName, attrs) = method := by
        rw [addClassMethod, dictFind] at first
        cases found : table.find method.1 with
        | none =>
            rw [found] at first
            obtain ⟨fresh, rfl⟩ := dictAdd_eq_ok.mp first
            rw [OrdDict.find_insertNew, Prod.ext_iff]
            by_cases same : methodName = method.1
            · subst same
              simp [fresh, found, eq_comm]
            · simp [same]
        | some old =>
            rw [found] at first
            simp only [] at first
            split at first
            next => cases first
            next agrees =>
              cases first
              refine ⟨.inl, ?_⟩
              rintro (inTable | rfl)
              · exact inTable
              · rw [found, not_not.mp agrees]
      rw [added, or_assoc]

theorem mentions_concat {done : List MetadataRecord} {record : MetadataRecord}
    {className methodName : Name} {attrs : UInt8} :
    Mentions (done ++ [record]) className methodName attrs ↔
      Mentions done className methodName attrs ∨
        ∃ methods, record = .methods className methods ∧
          (methodName, attrs) ∈ methods := by
  simp only [Mentions, List.mem_append, List.mem_singleton, or_and_right, exists_or,
    eq_comm]

theorem inherits_concat {done : List MetadataRecord} {record : MetadataRecord}
    {subClass superClass : Name} :
    Inherits (done ++ [record]) subClass superClass ↔
      Inherits done subClass superClass ∨
        ∃ superClasses, record = .bases subClass superClasses ∧
          superClass ∈ superClasses := by
  simp only [Inherits, List.mem_append, List.mem_singleton, or_and_right, exists_or,
    eq_comm]

/-- The table of a class before the record of its methods. -/
theorem find_getD {classes : ClassTable} {className methodName : Name}
    {attrs : UInt8} :
    ((dictFind classes className).getD ∅).find methodName = some attrs ↔
      InTable classes className methodName attrs := by
  rw [InTable, dictFind]
  cases classes.find className <;> simp

/-- The table of a class after the record of its methods. -/
theorem inTable_modify {classes : ClassTable} {className : Name}
    {table : OrdDict Name UInt8} {query methodName : Name} {attrs : UInt8} :
    InTable ((classes.insertNew className ∅).modify className fun _ => table)
        query methodName attrs ↔
      if query = className then table.find methodName = some attrs
      else InTable classes query methodName attrs := by
  simp only [InTable, OrdDict.find_modify, OrdDict.find_insertNew]
  by_cases same : query = className
  · subst same
    by_cases present : query ∈ classes
    · obtain ⟨methods, found⟩ := OrdDict.exists_find_of_mem present
      simp [present, found]
    · simp [present]
  · simp [same]

/-- One more record is loaded. -/
theorem LoadedFrom.step {done : List MetadataRecord} {record : MetadataRecord}
    {codeModule next : CodeModule} (loaded : LoadedFrom done codeModule)
    (runs : loadRecord codeModule record = .ok next) :
    LoadedFrom (done ++ [record]) next := by
  obtain ⟨icfs, functions, tables, cha, chaPopulated, aliases, aliasesPopulated,
    fats⟩ := loaded
  cases record with
  | branch icf =>
      cases runs
      constructor <;> simp_all [mentions_concat, inherits_concat]
  | function f =>
      cases runs
      constructor <;> simp_all [mentions_concat, inherits_concat]
  | bases subClass superClasses =>
      cases runs
      refine ⟨?_, ?_, ?_, fun left right => ?_, chaPopulated.joinAll _, ?_,
        aliasesPopulated, ?_⟩
      · simp_all
      · simp_all
      · simp_all [mentions_concat]
      · refine linked_joinAll.trans ?_
        rw [cha, inherits_concat, inherits_concat]
        simp only [List.mem_map, Prod.mk.injEq, MetadataRecord.bases.injEq]
        grind
      · simp_all
      · simp_all
  | methods className methods =>
      obtain ⟨table, added, stored⟩ := bind_eq_ok.mp runs
      cases stored
      refine ⟨?_, ?_, fun query methodName attrs => ?_, ?_, chaPopulated, ?_,
        aliasesPopulated, ?_⟩
      · simp_all
      · simp_all
      · rw [inTable_modify, foldlM_addClassMethod added, mentions_concat, ← tables,
          find_getD]
        by_cases same : query = className
        · subst same
          simp
        · have others : ¬ ∃ others, MetadataRecord.methods className methods =
              .methods query others ∧ (methodName, attrs) ∈ others := by
            rintro ⟨_, isOther, _⟩
            cases isOther
            exact same rfl
          rw [if_neg same, or_iff_left others]
      · simp_all [inherits_concat]
      · simp_all
      · simp_all
  | aliasOf name aliasee =>
      cases runs
      refine ⟨?_, ?_, ?_, ?_, chaPopulated, fun left right => ?_,
        (aliasesPopulated.link _ _).link _ _, ?_⟩
      · simp_all
      · simp_all
      · simp_all [mentions_concat]
      · simp_all [inherits_concat]
      · refine linked_join.trans ?_
        rw [aliases]
        simp only [List.mem_append, List.mem_singleton, MetadataRecord.aliasOf.injEq]
        grind
      · simp_all
  | addrTaken inCode name =>
      obtain ⟨sameIcfs, sameFunctions, sameClasses, sameCha, sameAliases⟩ :
          next.icfs = codeModule.icfs ∧ next.functions = codeModule.functions ∧
            next.classes = codeModule.classes ∧ next.cha = codeModule.cha ∧
            next.aliases = codeModule.aliases := by
        cases inCode <;> cases runs <;> exact ⟨rfl, rfl, rfl, rfl, rfl⟩
      have taken : ∀ other, other ∈ next.fats ∨ other ∈ next.fatsInCode ∨
            other ∈ next.fatsInData ↔
          other = name ∨ other ∈ codeModule.fats ∨ other ∈ codeModule.fatsInCode ∨
            other ∈ codeModule.fatsInData := by
        intro other
        cases inCode <;> cases runs <;>
          · simp only [OrdDict.mem_insertNew]
            tauto
      refine ⟨?_, ?_, ?_, ?_, sameCha ▸ chaPopulated, ?_, sameAliases ▸ aliasesPopulated,
        fun other => ?_⟩
      · simp_all
      · simp_all
      · simp_all [mentions_concat]
      · simp_all [inherits_concat]
      · simp_all
      · rw [taken, fats]
        simp only [List.mem_append, List.mem_singleton, MetadataRecord.addrTaken.injEq,
          exists_or, exists_eq_left]
        tauto

/-- A loaded module holds what its records say. -/
theorem loadRecords_loaded {records : List MetadataRecord} {codeModule : CodeModule}
    (runs : loadRecords records = .ok codeModule) :
    LoadedFrom records codeModule ∧
      ∀ name, name ∈ codeModule.fats ↔ ∃ inCode, .addrTaken inCode name ∈ records := by
  obtain ⟨parsed, parsing, stored⟩ := bind_eq_ok.mp runs
  cases stored
  have loaded : LoadedFrom records parsed := by
    refine foldlM_invariant LoadedFrom ?_
      (fun done record _ state next _ holds step => holds.step step) parsing
    constructor <;>
      simp [allocCodeModule, InTable, Mentions, Inherits, not_linked_empty,
        populated_empty]
  have taken : ∀ name, name ∈ mergeDicts (mergeDicts parsed.fats parsed.fatsInCode)
      parsed.fatsInData ↔ ∃ inCode, .addrTaken inCode name ∈ records := by
    intro name
    rw [mem_mergeDicts, mem_mergeDicts, or_assoc]
    exact loaded.fats name
  refine ⟨{ loaded with fats := fun name => ?_ }, taken⟩
  rw [← loaded.fats name, mem_mergeDicts, mem_mergeDicts]
  tauto

/-- The records give a method the same attributes wherever they mention it. -/
def Consistent (records : List MetadataRecord) : Prop :=
  ∀ className methodName first second,
    Mentions records className methodName first →
      Mentions records className methodName second → first = second

/-- The methods of a record of consistent ones are added. -/
private theorem addClassMethods_return {records : List MetadataRecord}
    (consistent : Consistent records) {className : Name}
    {methods : List (Name × UInt8)} (listed : .methods className methods ∈ records)
    {table : OrdDict Name UInt8}
    (mentioned : ∀ methodName attrs, table.find methodName = some attrs →
      Mentions records className methodName attrs) :
    ∃ result, methods.foldlM addClassMethod table = .ok result := by
  refine (foldlM_returns_iff
    (fun table => ∀ methodName attrs, table.find methodName = some attrs →
      Mentions records className methodName attrs) (fun _ => True)
    (fun method inMethods state holds => ⟨fun _ => trivial, fun _ => ?_⟩)
    (fun method inMethods state next holds runs methodName attrs found => ?_)
    mentioned).mpr fun _ _ => trivial
  · rw [addClassMethod, dictFind]
    cases found : state.find method.1 with
    | none =>
        exact ⟨_, dictAdd_eq_ok.mpr ⟨OrdDict.find_eq_none.mp found, rfl⟩⟩
    | some attrs =>
        have agrees : attrs = method.2 := consistent className method.1 _ _
          (holds method.1 attrs found) ⟨methods, listed, inMethods⟩
        exact ⟨state, if_neg (not_not.mpr agrees)⟩
  · have single : [method].foldlM addClassMethod state = .ok next := by
      rw [List.foldlM_cons, runs]
      rfl
    rcases (foldlM_addClassMethod single methodName attrs).mp found with old | new
    · exact holds methodName attrs old
    · obtain rfl := List.mem_singleton.mp new
      exact ⟨methods, listed, inMethods⟩

/-- Consistent records load. -/
theorem loadRecords_returns {records : List MetadataRecord}
    (consistent : Consistent records) :
    ∃ codeModule, loadRecords records = .ok codeModule := by
  have parsed : ∃ codeModule, records.foldlM loadRecord allocCodeModule =
      .ok codeModule := by
    refine (foldlM_returns_iff
      (fun codeModule => ∀ className methodName attrs,
        InTable codeModule.classes className methodName attrs →
          Mentions records className methodName attrs) (fun _ => True)
      (fun record listed state holds => ⟨fun _ => trivial, fun _ => ?_⟩)
      (fun record listed state next holds runs => ?_)
      (fun _ _ _ inTable => ?_)).mpr fun _ _ => trivial
    · cases record with
      | methods className methods =>
          obtain ⟨table, added⟩ := addClassMethods_return consistent listed
            fun methodName attrs found =>
              holds className methodName attrs (find_getD.mp found)
          exact ⟨_, bind_eq_ok.mpr ⟨table, added, rfl⟩⟩
      | addrTaken inCode name => cases inCode <;> exact ⟨_, rfl⟩
      | _ => exact ⟨_, rfl⟩
    · cases record with
      | methods className methods =>
          obtain ⟨table, added, stored⟩ := bind_eq_ok.mp runs
          cases stored
          intro query methodName attrs inTable
          rw [inTable_modify] at inTable
          split at inTable
          next same =>
            subst same
            rcases (foldlM_addClassMethod added methodName attrs).mp inTable with
              old | new
            · exact holds query methodName attrs (find_getD.mp old)
            · exact ⟨methods, listed, new⟩
          next => exact holds query methodName attrs inTable
      | addrTaken inCode name => cases inCode <;> cases runs <;> exact holds
      | _ =>
          cases runs
          exact holds
    · obtain ⟨methods, found, _⟩ := inTable
      simp [allocCodeModule] at found
  obtain ⟨codeModule, runs⟩ := parsed
  exact ⟨_, bind_eq_ok.mpr ⟨codeModule, runs, rfl⟩⟩

end Records

section Splits

/-- The parts hold the records, and nothing else. -/
def Distributes (parts : List (List MetadataRecord)) (records : List MetadataRecord) :
    Prop :=
  ∀ record, record ∈ records ↔ ∃ part ∈ parts, record ∈ part

/-- The merged table of every class is the union of the modules' tables. -/
def TablesUnited (modules : List CodeModule) : Prop :=
  ∀ className methodName attrs,
    InTable (mergeMcfiMetainfo modules).classes className methodName attrs ↔
      ∃ codeModule ∈ modules,
        InTable codeModule.classes className methodName attrs

/-- The first module that has a table of a class has all that later ones have. -/
def FirstKnowsAll (modules : List CodeModule) : Prop :=
  ∀ before first later className, modules = before ++ first :: later →
    (∀ other ∈ before, className ∉ other.classes) → className ∈ first.classes →
      ∀ other ∈ later, ∀ methodName attrs,
        InTable other.classes className methodName attrs →
          InTable first.classes className methodName attrs

/-- The merged table of a class is that of the first module that has one. -/
theorem inTable_merged_first {before later : List CodeModule} {first : CodeModule}
    {className : Name} (absent : ∀ other ∈ before, className ∉ other.classes)
    (present : className ∈ first.classes) {methodName : Name} {attrs : UInt8} :
    InTable (mergeMcfiMetainfo (before ++ first :: later)).classes className
        methodName attrs ↔
      InTable first.classes className methodName attrs := by
  have missing : before.findSome? (fun codeModule =>
      codeModule.classes.find className) = none :=
    List.findSome?_eq_none_iff.mpr fun other listed =>
      OrdDict.find_eq_none.mpr (absent other listed)
  obtain ⟨methods, found⟩ := OrdDict.exists_find_of_mem present
  rw [InTable, InTable, find_mergedClasses, List.findSome?_append, missing,
    List.findSome?_cons, found]
  simp

/-- A class that some module has a table of has a first one. -/
theorem exists_first (modules : List CodeModule) (className : Name) :
    (∀ codeModule ∈ modules, className ∉ codeModule.classes) ∨
      ∃ before first later, modules = before ++ first :: later ∧
        (∀ other ∈ before, className ∉ other.classes) ∧
        className ∈ first.classes := by
  induction modules with
  | nil =>
      exact .inl fun _ never => nomatch never
  | cons head rest inductionHypothesis =>
      by_cases present : className ∈ head.classes
      · exact .inr ⟨[], head, rest, rfl, (fun _ never => nomatch never), present⟩
      · rcases inductionHypothesis with absent | ⟨before, first, later, rfl, absent, found⟩
        · exact .inl (List.forall_mem_cons.mpr ⟨present, absent⟩)
        · exact .inr ⟨head :: before, first, later, rfl,
            List.forall_mem_cons.mpr ⟨present, absent⟩, found⟩

theorem mem_of_inTable {classes : ClassTable} {className methodName : Name}
    {attrs : UInt8} (inTable : InTable classes className methodName attrs) :
    className ∈ classes := by
  obtain ⟨methods, found, _⟩ := inTable
  exact OrdDict.mem_of_find found

/--
The merged tables are the union of the modules' tables exactly when the first module
that has a table of a class has all methods that the others give it.
-/
theorem tablesUnited_iff (modules : List CodeModule) :
    TablesUnited modules ↔ FirstKnowsAll modules := by
  constructor
  · rintro united before first later className rfl absent present other listed
      methodName attrs inTable
    refine (inTable_merged_first absent present).mp ((united _ _ _).mpr
      ⟨other, ?_, inTable⟩)
    exact List.mem_append_right _ (List.mem_cons_of_mem _ listed)
  · intro knows className methodName attrs
    rcases exists_first modules className with
      absent | ⟨before, first, later, rfl, absent, present⟩
    · constructor
      · rintro ⟨methods, found, _⟩
        rw [find_mergedClasses] at found
        obtain ⟨codeModule, listed, inModule⟩ := List.exists_of_findSome?_eq_some found
        exact absurd (OrdDict.mem_of_find inModule) (absent codeModule listed)
      · rintro ⟨codeModule, listed, inTable⟩
        exact absurd (mem_of_inTable inTable) (absent codeModule listed)
    · rw [inTable_merged_first absent present]
      constructor
      · intro inTable
        exact ⟨first, List.mem_append_right _ List.mem_cons_self, inTable⟩
      · rintro ⟨codeModule, listed, inTable⟩
        rcases List.mem_append.mp listed with inBefore | inRest
        · exact absurd (mem_of_inTable inTable) (absent codeModule inBefore)
        · rcases List.mem_cons.mp inRest with rfl | inLater
          · exact inTable
          · exact knows before first later className rfl absent present codeModule
              inLater methodName attrs inTable

theorem methodAttrs_eq_some {classes : ClassTable} {f : Function} {attrs : UInt8} :
    methodAttrs classes f = some attrs ↔
      ∃ className methodName, f.className = some className ∧
        f.methodName = some methodName ∧
        InTable classes className methodName attrs := by
  rw [methodAttrs]
  cases f.className with
  | none => simp
  | some className =>
      cases f.methodName with
      | none => simp
      | some methodName =>
          cases found : classes.find className <;> simp [InTable, dictFind, found]

/-- Tables with the same entries take a function for the same method. -/
theorem instanceAttrs_congr {first second : ClassTable}
    (tables : ∀ className methodName attrs,
      InTable first className methodName attrs ↔
        InTable second className methodName attrs) (f : Function) :
    instanceAttrs first f = instanceAttrs second f := by
  have same : methodAttrs first f = methodAttrs second f := by
    ext attrs
    simp only [methodAttrs_eq_some, tables]
  rw [instanceAttrs, instanceAttrs, same]

theorem virtualEntry_iff {classes : ClassTable} {className methodName : Name} :
    virtualEntry classes className methodName = true ↔
      ∃ attrs, InTable classes className methodName attrs ∧
        isVirtual attrs = true := by
  simp only [virtualEntry, InTable, dictFind]
  cases found : classes.find className with
  | none => simp
  | some methods =>
      cases located : methods.find methodName <;> simp [located]

/-- Merged metadata holds what the records of its modules say. -/
structure MergedFrom (records : List MetadataRecord) (info : Metainfo) : Prop where
  icfs : ∀ icf, icf ∈ info.icfs ↔ .branch icf ∈ records
  functions : ∀ f, f ∈ info.functions ↔ .function f ∈ records
  fats : ∀ name, name ∈ info.fats ↔ ∃ inCode, .addrTaken inCode name ∈ records
  cha : ∀ left right, Linked info.cha left right ↔
    Inherits records left right ∨ Inherits records right left
  chaPopulated : Populated info.cha
  aliases : ∀ left right, Linked info.aliases left right ↔
    .aliasOf left right ∈ records ∨ .aliasOf right left ∈ records
  aliasesPopulated : Populated info.aliases

variable {records : List MetadataRecord} {parts : List (List MetadataRecord)}
  {modules : List CodeModule}

/-- What the modules of a distribution hold together. -/
theorem exists_module_iff (loads : parts.mapM loadRecords = .ok modules)
    {Says : List MetadataRecord → Prop} {Has : CodeModule → Prop}
    (said : Says records ↔ ∃ part ∈ parts, Says part)
    (has : ∀ part codeModule, loadRecords part = .ok codeModule →
      (Has codeModule ↔ Says part)) :
    (∃ codeModule ∈ modules, Has codeModule) ↔ Says records := by
  obtain ⟨loaded, parsed⟩ := mem_of_mapM loads
  rw [said]
  constructor
  · rintro ⟨codeModule, listed, isHad⟩
    obtain ⟨part, inParts, runs⟩ := parsed codeModule listed
    exact ⟨part, inParts, (has part codeModule runs).mp isHad⟩
  · rintro ⟨part, inParts, isSaid⟩
    obtain ⟨codeModule, listed, runs⟩ := loaded part inParts
    exact ⟨codeModule, listed, (has part codeModule runs).mpr isSaid⟩

theorem Distributes.mentions (distributes : Distributes parts records)
    {className methodName : Name} {attrs : UInt8} :
    Mentions records className methodName attrs ↔
      ∃ part ∈ parts, Mentions part className methodName attrs := by
  simp only [Mentions, distributes _]
  grind

theorem Distributes.inherits (distributes : Distributes parts records)
    {subClass superClass : Name} :
    Inherits records subClass superClass ↔
      ∃ part ∈ parts, Inherits part subClass superClass := by
  simp only [Inherits, distributes _]
  grind

/-- The merged metadata of the modules of a distribution. -/
theorem mergedFrom (distributes : Distributes parts records)
    (loads : parts.mapM loadRecords = .ok modules) :
    MergedFrom records (mergeMcfiMetainfo modules) := by
  have loaded := fun part codeModule (runs : loadRecords part = .ok codeModule) =>
    loadRecords_loaded runs
  obtain ⟨icfs, functions⟩ := mergeMcfiMetainfo_lists modules
  have linkedCha : ∀ left right, Linked (mergeMcfiMetainfo modules).cha left right ↔
      ∃ codeModule ∈ modules, Linked codeModule.cha left right :=
    fun left right => (linked_mergeMcfiMetainfo modules left right).1
  have linkedAliases : ∀ left right,
      Linked (mergeMcfiMetainfo modules).aliases left right ↔
        ∃ codeModule ∈ modules, Linked codeModule.aliases left right :=
    fun left right => (linked_mergeMcfiMetainfo modules left right).2
  have isLoaded : ∀ codeModule ∈ modules,
      ∃ part, loadRecords part = .ok codeModule := by
    intro codeModule listed
    obtain ⟨part, _, runs⟩ := (mem_of_mapM loads).2 codeModule listed
    exact ⟨part, runs⟩
  refine ⟨fun icf => ?_, fun f => ?_, fun name => ?_, fun left right => ?_, ?_,
    fun left right => ?_, ?_⟩
  · rw [icfs, List.mem_flatMap]
    exact exists_module_iff loads (distributes (.branch icf))
      fun part codeModule runs => (loaded part codeModule runs).1.icfs icf
  · rw [functions, List.mem_flatMap]
    exact exists_module_iff loads (distributes (.function f))
      fun part codeModule runs => (loaded part codeModule runs).1.functions f
  · rw [(mem_mergeMcfiMetainfo modules name).1]
    have said : (∃ inCode, .addrTaken inCode name ∈ records) ↔
        ∃ part ∈ parts, ∃ inCode, .addrTaken inCode name ∈ part := by
      simp only [distributes _]
      grind
    exact exists_module_iff loads said
      fun part codeModule runs => (loaded part codeModule runs).2 name
  · rw [linkedCha]
    have said : Inherits records left right ∨ Inherits records right left ↔
        ∃ part ∈ parts, Inherits part left right ∨ Inherits part right left := by
      rw [distributes.inherits, distributes.inherits]
      grind
    exact exists_module_iff loads said
      fun part codeModule runs => (loaded part codeModule runs).1.cha left right
  · intro left inGraph
    obtain ⟨codeModule, listed, inModule⟩ := (mem_mergedGraphs modules left).1.mp inGraph
    obtain ⟨part, runs⟩ := isLoaded codeModule listed
    obtain ⟨right, linked⟩ := (loaded part codeModule runs).1.chaPopulated left inModule
    exact ⟨right, (linkedCha left right).mpr ⟨codeModule, listed, linked⟩⟩
  · rw [linkedAliases]
    have said : .aliasOf left right ∈ records ∨ .aliasOf right left ∈ records ↔
        ∃ part ∈ parts, .aliasOf left right ∈ part ∨ .aliasOf right left ∈ part := by
      rw [distributes, distributes]
      grind
    exact exists_module_iff loads said
      fun part codeModule runs => (loaded part codeModule runs).1.aliases left right
  · intro left inGraph
    obtain ⟨codeModule, listed, inModule⟩ := (mem_mergedGraphs modules left).2.mp inGraph
    obtain ⟨part, runs⟩ := isLoaded codeModule listed
    obtain ⟨right, linked⟩ :=
      (loaded part codeModule runs).1.aliasesPopulated left inModule
    exact ⟨right, (linkedAliases left right).mpr ⟨codeModule, listed, linked⟩⟩

/-- The merged tables hold what the records mention when they are united. -/
theorem inTable_merged_iff (distributes : Distributes parts records)
    (loads : parts.mapM loadRecords = .ok modules) (united : TablesUnited modules)
    (className methodName : Name) (attrs : UInt8) :
    InTable (mergeMcfiMetainfo modules).classes className methodName attrs ↔
      Mentions records className methodName attrs := by
  rw [united]
  exact exists_module_iff loads distributes.mentions
    fun part codeModule runs =>
      (loadRecords_loaded runs).1.tables className methodName attrs

/-- Two merges of the same records with the same tables grow from each other. -/
theorem MergedFrom.grows {first second : Metainfo}
    (old : MergedFrom records first) (new : MergedFrom records second)
    (tables : ∀ className methodName attrs,
      InTable first.classes className methodName attrs ↔
        InTable second.classes className methodName attrs) :
    first.Grows second where
  icfs := fun icf listed => (new.icfs icf).mpr ((old.icfs icf).mp listed)
  functions := fun f listed => (new.functions f).mpr ((old.functions f).mp listed)
  fats := fun name listed => (new.fats name).mpr ((old.fats name).mp listed)
  methods := fun f _ attrs isMethod =>
    (instanceAttrs_congr tables f).symm.trans isMethod
  plain := fun f _ target => (instanceAttrs_congr tables f).symm.trans target.plain
  entries := fun className methodName isEntry => by
    rw [virtualEntry_iff] at isEntry ⊢
    obtain ⟨attrs, inTable, virtual⟩ := isEntry
    exact ⟨attrs, (tables _ _ _).mp inTable, virtual⟩
  cha := fun left right same => same.mono old.chaPopulated fun a b linked =>
    (new.cha a b).mpr ((old.cha a b).mp linked)
  aliases := fun left right same => same.mono old.aliasesPopulated fun a b linked =>
    (new.aliases a b).mpr ((old.aliases a b).mp linked)

/-- Metadata that has no more separates the implementations it has. -/
theorem Metainfo.Grows.separate {first second : Metainfo} (grows : first.Grows second)
    (separate : SeparateImplementations second) : SeparateImplementations first :=
  fun f fListed g gListed left right methodName fClass gClass fMethod gMethod
      leftEntry rightEntry same shared =>
    separate f (grows.functions f fListed) g (grows.functions g gListed) left right
      methodName fClass gClass fMethod gMethod
      (grows.entries left methodName leftEntry)
      (grows.entries right methodName rightEntry) (grows.cha left right same)
      (shared.imp_right (grows.aliases f.name g.name))

/-- Two call graphs are built together, and have the same components. -/
structure SameCfg (first second : Rt (LinkMap Nat Nat × LinkMap Name Function)) :
    Prop where
  returns : (∃ result, first = .ok result) ↔ ∃ result, second = .ok result
  components : ∀ firstGraph firstFuncs secondGraph secondFuncs,
    first = .ok (firstGraph, firstFuncs) → second = .ok (secondGraph, secondFuncs) →
      ∀ left right, SameComponent firstGraph left right ↔
        SameComponent secondGraph left right

variable {otherParts : List (List MetadataRecord)} {otherModules : List CodeModule}

/-- United tables and fresh attribute bytes give the same call graph. -/
theorem sameCfg_of_united (distributes : Distributes parts records)
    (otherDistributes : Distributes otherParts records)
    (loads : parts.mapM loadRecords = .ok modules)
    (otherLoads : otherParts.mapM loadRecords = .ok otherModules)
    (united : TablesUnited modules) (otherUnited : TablesUnited otherModules)
    {attrs otherAttrs : UInt8}
    (noStale : NoStaleVirtual (mergeMcfiMetainfo modules).classes attrs
      (mergeMcfiMetainfo modules).functions)
    (otherNoStale : NoStaleVirtual (mergeMcfiMetainfo otherModules).classes otherAttrs
      (mergeMcfiMetainfo otherModules).functions) :
    SameCfg (buildCallgraph attrs (mergeMcfiMetainfo modules))
      (buildCallgraph otherAttrs (mergeMcfiMetainfo otherModules)) := by
  have tables : ∀ className methodName value,
      InTable (mergeMcfiMetainfo modules).classes className methodName value ↔
        InTable (mergeMcfiMetainfo otherModules).classes className methodName value :=
    fun className methodName value =>
      (inTable_merged_iff distributes loads united className methodName value).trans
        (inTable_merged_iff otherDistributes otherLoads otherUnited className methodName
          value).symm
  have merged := mergedFrom distributes loads
  have otherMerged := mergedFrom otherDistributes otherLoads
  have forward := merged.grows otherMerged tables
  have backward := otherMerged.grows merged fun className methodName value =>
    (tables className methodName value).symm
  have cha := undirected_cha modules
  have otherCha := undirected_cha otherModules
  constructor
  · rw [buildCallgraph_returns attrs (undirected_aliases modules) cha,
      buildCallgraph_returns otherAttrs (undirected_aliases otherModules) otherCha]
    exact ⟨backward.separate, forward.separate⟩
  · intro graph funcs otherGraph otherFuncs runs otherRuns left right
    obtain ⟨built⟩ := buildCallgraph_parts (undirected_aliases modules) cha runs
    obtain ⟨otherBuilt⟩ :=
      buildCallgraph_parts (undirected_aliases otherModules) otherCha otherRuns
    exact ⟨forward.sameComponent built otherBuilt otherCha noStale otherNoStale cha,
      backward.sameComponent otherBuilt built cha otherNoStale noStale otherCha⟩

/--
Splitting the records of a program over modules in two ways gives the same call graph
and the united class tables only when the first module that knows a class knows all of
its methods, and then it does unless a stale attribute byte files a function.
-/
theorem split_keeps_cfg (distributes : Distributes parts records)
    (otherDistributes : Distributes otherParts records)
    (loads : parts.mapM loadRecords = .ok modules)
    (otherLoads : otherParts.mapM loadRecords = .ok otherModules)
    (attrs otherAttrs : UInt8) :
    (SameCfg (buildCallgraph attrs (mergeMcfiMetainfo modules))
        (buildCallgraph otherAttrs (mergeMcfiMetainfo otherModules)) ∧
      TablesUnited modules ∧ TablesUnited otherModules →
        FirstKnowsAll modules ∧ FirstKnowsAll otherModules) ∧
    (FirstKnowsAll modules ∧ FirstKnowsAll otherModules →
      NoStaleVirtual (mergeMcfiMetainfo modules).classes attrs
        (mergeMcfiMetainfo modules).functions →
      NoStaleVirtual (mergeMcfiMetainfo otherModules).classes otherAttrs
        (mergeMcfiMetainfo otherModules).functions →
      SameCfg (buildCallgraph attrs (mergeMcfiMetainfo modules))
        (buildCallgraph otherAttrs (mergeMcfiMetainfo otherModules)) ∧
      TablesUnited modules ∧ TablesUnited otherModules) := by
  rw [← tablesUnited_iff, ← tablesUnited_iff]
  refine ⟨fun holds => holds.2, fun ⟨united, otherUnited⟩ noStale otherNoStale => ?_⟩
  exact ⟨sameCfg_of_united distributes otherDistributes loads otherLoads united
    otherUnited noStale otherNoStale, united, otherUnited⟩

end Splits

namespace SplitExample

/-- A class and two of its virtual methods. -/
def className : Name := Name.ofPtr 16

/-- A method that both units mention. -/
def shared : Name := Name.ofPtr 32

/-- A method that one unit mentions. -/
def implicit : Name := Name.ofPtr 48

/-- A virtual call of that method. -/
def call : Icf := ⟨Name.ofPtr 64, .virtualMethodCall className implicit⟩

/-- The function of that method. -/
def body : Function where
  name := Name.ofPtr 80
  className := some className
  methodName := some implicit
  type := none
  returns := []
  dtails := []
  itails := []

/-- What the unit that does not need the method says. -/
def firstUnit : List MetadataRecord :=
  [.methods className [(shared, Qualifier.virtual.bit)]]

/-- What the unit that has and calls the method says. -/
def secondUnit : List MetadataRecord :=
  [.methods className
      [(shared, Qualifier.virtual.bit), (implicit, Qualifier.virtual.bit)],
    .function body, .branch call]

/-- The branch is a vertex of the call graph of the modules. -/
def branchInGraph (parts : List (List MetadataRecord)) : Option Bool :=
  (parts.mapM loadRecords >>= fun modules =>
    buildCallgraph 0 (mergeMcfiMetainfo modules)).toOption.map fun built =>
      decide (markIcj call.id ∈ built.1)

/-- A call graph of the modules, given whether it has the branch. -/
theorem exists_callgraph {parts : List (List MetadataRecord)} {inGraph : Bool}
    (computed : branchInGraph parts = some inGraph) :
    ∃ modules callgraph allFuncs, parts.mapM loadRecords = .ok modules ∧
      buildCallgraph 0 (mergeMcfiMetainfo modules) = .ok (callgraph, allFuncs) ∧
      (markIcj call.id ∈ callgraph ↔ inGraph = true) := by
  obtain ⟨⟨callgraph, allFuncs⟩, built, isMember⟩ := Option.map_eq_some_iff.mp computed
  obtain ⟨modules, loads, runs⟩ := bind_eq_ok.mp (toOption_eq_some.mp built)
  refine ⟨modules, callgraph, allFuncs, loads, runs, ?_⟩
  rw [← isMember, decide_eq_true_eq]

/-- All methods that the units mention are virtual. -/
theorem consistent_units : Consistent (firstUnit ++ secondUnit) := by
  have allVirtual : ∀ className methodName attrs,
      Mentions (firstUnit ++ secondUnit) className methodName attrs →
        attrs = Qualifier.virtual.bit := by
    rintro _ methodName attrs ⟨methods, listed, inMethods⟩
    simp only [firstUnit, secondUnit, List.cons_append, List.nil_append,
      List.mem_cons, MetadataRecord.methods.injEq, reduceCtorEq, List.not_mem_nil,
      or_false] at listed
    rcases listed with ⟨_, rfl⟩ | ⟨_, rfl⟩
    · exact (Prod.mk.inj (List.mem_singleton.mp inMethods)).2
    · rcases List.mem_cons.mp inMethods with isShared | inRest
      · exact (Prod.mk.inj isShared).2
      · exact (Prod.mk.inj (List.mem_singleton.mp inRest)).2
  intro className methodName first second isFirst isSecond
  rw [allVirtual _ _ _ isFirst, allVirtual _ _ _ isSecond]

/-- Only the first part has records of methods. -/
theorem firstKnowsAll_of_tail {first : List MetadataRecord}
    {rest : List (List MetadataRecord)} {modules : List CodeModule}
    (loads : (first :: rest).mapM loadRecords = .ok modules)
    (noMethods : ∀ part ∈ rest, ∀ className methods,
      .methods className methods ∉ part) : FirstKnowsAll modules := by
  rw [List.mapM_cons] at loads
  obtain ⟨head, _, loads⟩ := bind_eq_ok.mp loads
  obtain ⟨tail, tailLoads, stored⟩ := bind_eq_ok.mp loads
  cases stored
  rintro before firstModule later query split _ _ other listed methodName attrs inTable
  have inTail : other ∈ tail := by
    cases before with
    | nil =>
        cases split
        exact listed
    | cons _ others =>
        cases split
        exact List.mem_append_right _ (List.mem_cons_of_mem _ listed)
  obtain ⟨part, inRest, runs⟩ := (mem_of_mapM tailLoads).2 other inTail
  obtain ⟨methods, mentioned, _⟩ :=
    ((loadRecords_loaded runs).1.tables query methodName attrs).mp inTable
  exact absurd mentioned (noMethods part inRest query methods)

/-- The method of every function is in the united table. -/
theorem noStale_units {parts : List (List MetadataRecord)} {modules : List CodeModule}
    (distributes : Distributes parts secondUnit)
    (loads : parts.mapM loadRecords = .ok modules) (knows : FirstKnowsAll modules) :
    NoStaleVirtual (mergeMcfiMetainfo modules).classes 0
      (mergeMcfiMetainfo modules).functions := by
  refine noStaleVirtual_of_entries (fun f listed _ _ missing => ?_) 0
  have isBody : f = body := by
    simpa [secondUnit] using ((mergedFrom distributes loads).functions f).mp listed
  have inTable := (inTable_merged_iff distributes loads ((tablesUnited_iff _).mpr knows)
    className implicit Qualifier.virtual.bit).mpr
      ⟨_, List.mem_cons_self, List.mem_cons_of_mem _ List.mem_cons_self⟩
  have found : methodAttrs (mergeMcfiMetainfo modules).classes f =
      some Qualifier.virtual.bit :=
    methodAttrs_eq_some.mpr ⟨className, implicit, by rw [isBody]; rfl,
      by rw [isBody]; rfl, inTable⟩
  rw [missing] at found
  cases found

end SplitExample

open SplitExample in
/-- A class of which the module that is loaded first knows one method only. -/
theorem split_changes_cfg :
    ¬ ∀ (records : List MetadataRecord) (parts otherParts : List (List MetadataRecord))
        (modules otherModules : List CodeModule),
      Distributes parts records → Distributes otherParts records → Consistent records →
        parts.mapM loadRecords = .ok modules →
          otherParts.mapM loadRecords = .ok otherModules →
            ∀ attrs otherAttrs,
              SameCfg (buildCallgraph attrs (mergeMcfiMetainfo modules))
                  (buildCallgraph otherAttrs (mergeMcfiMetainfo otherModules)) ∧
                TablesUnited modules ∧ TablesUnited otherModules := by
  intro all
  obtain ⟨modules, callgraph, allFuncs, loads, runs, inGraph⟩ :=
    exists_callgraph (show branchInGraph [firstUnit ++ secondUnit] = some true by
      decide +kernel)
  obtain ⟨otherModules, otherGraph, otherFuncs, otherLoads, otherRuns, outside⟩ :=
    exists_callgraph (show branchInGraph [firstUnit, secondUnit] = some false by
      decide +kernel)
  have distributes : Distributes [firstUnit ++ secondUnit] (firstUnit ++ secondUnit) :=
    fun record => by simp
  have otherDistributes : Distributes [firstUnit, secondUnit] (firstUnit ++ secondUnit) :=
    fun record => by simp
  have same := (all _ _ _ modules otherModules distributes otherDistributes
    consistent_units loads otherLoads 0 0).1
  have moved := (same.components _ _ _ _ runs otherRuns (markIcj call.id)
    (markIcj call.id)).mp ⟨inGraph.mpr rfl, Relation.ReflTransGen.refl⟩
  exact absurd (outside.mp moved.1) Bool.false_ne_true

open SplitExample in
/-- A class in one module, and its method and the call in another one. -/
theorem split_keeps_cfg_units :
    ∃ modules otherModules,
      [secondUnit].mapM loadRecords = .ok modules ∧
        [secondUnit.take 1, secondUnit.drop 1].mapM loadRecords = .ok otherModules ∧
        SameCfg (buildCallgraph 0 (mergeMcfiMetainfo modules))
          (buildCallgraph 0 (mergeMcfiMetainfo otherModules)) ∧
        TablesUnited modules ∧ TablesUnited otherModules := by
  obtain ⟨modules, _, _, loads, _⟩ :=
    exists_callgraph (show branchInGraph [secondUnit] = some true by decide +kernel)
  obtain ⟨otherModules, _, _, otherLoads, _⟩ :=
    exists_callgraph (show branchInGraph [secondUnit.take 1, secondUnit.drop 1] =
      some true by decide +kernel)
  have distributes : Distributes [secondUnit] secondUnit := fun record => by simp
  have otherDistributes :
      Distributes [secondUnit.take 1, secondUnit.drop 1] secondUnit :=
    fun record => by simp [secondUnit]
  have knows : FirstKnowsAll modules :=
    firstKnowsAll_of_tail loads fun _ never => nomatch never
  have otherKnows : FirstKnowsAll otherModules :=
    firstKnowsAll_of_tail otherLoads fun part listed className methods => by
      rw [List.mem_singleton.mp listed]
      simp [secondUnit]
  exact ⟨modules, otherModules, loads, otherLoads,
    (split_keeps_cfg distributes otherDistributes loads otherLoads 0 0).2
      ⟨knows, otherKnows⟩ (noStale_units distributes loads knows)
      (noStale_units otherDistributes otherLoads otherKnows)⟩

end Mcfi
