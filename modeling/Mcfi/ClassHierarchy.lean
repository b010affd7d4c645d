import Mathlib.Data.Finset.Dedup
import Mathlib.Data.Finset.Order
import Mcfi.ClassSections

namespace Mcfi

open Delimited LinkMap

/-!
# Class hierarchies survive

Whatever a section holds, `parse_cha` puts no name with a `#` into the tables.  So
the classes of a program come back exactly when no name that is written has one,
and when the qualifiers are read back of each method.
-/

section AnySection

variable {tables result : ClassTables} {cursor left : Text}

/-- No name of the tables has a `#` in it. -/
structure NamesClear (tables : ClassTables) : Prop where
  edges : ∀ first second, Linked tables.cha first second →
    Clear '#' first ∧ Clear '#' second
  methods : ∀ className methodName attrs,
    methodOf tables.classes className methodName = some attrs →
      Clear '#' className ∧ Clear '#' methodName

/-- A name that is read is clear, as the string was. -/
theorem getCppMethodAttr_clear {string name : Text} {attrs : UInt8}
    (clear : Clear '#' string)
    (read : getCppMethodAttr string = .ok (name, attrs)) : Clear '#' name := by
  rcases getCppMethodAttr_ok read with ⟨rfl, _⟩ | ⟨rest, rfl⟩
  · exact clear
  · exact fun c listed => clear c (List.mem_append_left _ listed)

/-- Whatever the record of an inheritance, its names are clear. -/
theorem parseInheritance_clear {cha changed : LinkMap Text Text}
    (names : ∀ first second, Linked cha first second →
      Clear '#' first ∧ Clear '#' second)
    (returned : parseInheritance cursor cha = .ok (changed, left)) :
    ∀ first second, Linked changed first second →
      Clear '#' first ∧ Clear '#' second := by
  unfold parseInheritance at returned
  rw [bind_eq_ok] at returned
  obtain ⟨⟨subClass, stop, inner⟩, taken, returned⟩ := returned
  obtain ⟨_, _, _, _, subClear⟩ := getStringBeforeSymbol_ok taken
  cases stop with
  | true =>
      cases returned
      exact names
  | false =>
      refine whileNotStop_keeps (fun cha => ∀ first second,
        Linked cha first second → Clear '#' first ∧ Clear '#' second) ?_ names
        returned
      intro superClass before after superClear kept run
      cases run
      intro first second linked
      rcases linked_join.mp linked with ⟨rfl, rfl⟩ | ⟨rfl, rfl⟩ | old
      · exact ⟨subClear, superClear⟩
      · exact ⟨superClear, subClear⟩
      · exact kept first second old

/-- Whatever the record of methods, its names are clear. -/
theorem parseClasses_clear {classes changed : OrdDict Text (OrdDict Text UInt8)}
    (names : ∀ c m a, methodOf classes c m = some a → Clear '#' c ∧ Clear '#' m)
    (returned : parseClasses cursor classes = .ok (changed, left)) :
    ∀ c m a, methodOf changed c m = some a → Clear '#' c ∧ Clear '#' m := by
  rw [parseClasses_eq, bind_eq_ok] at returned
  obtain ⟨⟨className, stop, inner⟩, taken, returned⟩ := returned
  obtain ⟨_, _, _, _, classClear⟩ := getStringBeforeSymbol_ok taken
  have entered : ∀ c m a, methodOf (classes.insertNew className ∅) c m = some a →
      Clear '#' c ∧ Clear '#' m := by
    intro c m a
    rw [methodOf_insertNew]
    exact names c m a
  cases stop with
  | true =>
      cases returned
      exact entered
  | false =>
      refine (whileNotStop_keeps (fun classes => className ∈ classes ∧
        ∀ c m a, methodOf classes c m = some a → Clear '#' c ∧ Clear '#' m) ?_
        ⟨OrdDict.mem_insertNew.mpr (Or.inl rfl), entered⟩ returned).2
      rintro string before after clear ⟨present, kept⟩ run
      obtain ⟨name, attrs, read, sameKeys, added⟩ := addMethod_ok present run
      refine ⟨(sameKeys className).mpr present, fun c m a held => ?_⟩
      rcases (added c m a).mp held with old | ⟨rfl, rfl, rfl⟩
      · exact kept c m a old
      · exact ⟨classClear, getCppMethodAttr_clear clear read⟩

/-- Whatever the record, its names are clear. -/
theorem parseChaRecord_clear (names : NamesClear tables)
    (returned : parseChaRecord cursor tables = .ok (result, left)) :
    NamesClear result := by
  unfold parseChaRecord at returned
  split at returned
  next cursor =>
    rw [bind_eq_ok] at returned
    obtain ⟨⟨cha, behind⟩, parsed, returned⟩ := returned
    cases returned
    exact ⟨parseInheritance_clear names.edges parsed, names.methods⟩
  next cursor =>
    rw [bind_eq_ok] at returned
    obtain ⟨⟨classes, behind⟩, parsed, returned⟩ := returned
    cases returned
    exact ⟨names.edges, parseClasses_clear names.methods parsed⟩
  next => cases returned

/-- Whatever the section, the names of the tables are clear. -/
theorem parseChaLoop_clear {behind : Text} {fuel : Nat}
    (names : NamesClear tables)
    (returned : parseCha.loop behind fuel cursor tables = .ok (result, left)) :
    NamesClear result := by
  induction fuel generalizing cursor tables with
  | zero => cases returned
  | succ fuel inductionHypothesis =>
      rw [parseCha.loop] at returned
      split at returned
      next =>
        cases returned
        exact names
      next =>
        rw [bind_eq_ok] at returned
        obtain ⟨⟨next, inner⟩, first, later⟩ := returned
        exact inductionHypothesis (parseChaRecord_clear names first) later

theorem parseCha_clear {content behind : Text}
    (returned : parseCha content behind = .ok (tables, left)) :
    NamesClear tables := by
  refine parseChaLoop_clear ⟨fun _ _ linked => ?_, fun _ _ _ held => ?_⟩ returned
  · exact absurd linked (not_linked_empty _ _)
  · cases held

end AnySection

section WholeSection

variable {definitions : List ClassDefinition} {records : List Text}
  {tables : ClassTables} {behind left : Text}

/-- The records of some classes, in any order. -/
def Records (definitions : List ClassDefinition) (records : List Text) : Prop :=
  ∀ text, text ∈ records ↔
    ∃ definition ∈ definitions, text ∈ definition.genClassHierarchyInfo

theorem records_flatMap (definitions : List ClassDefinition) :
    Records definitions
      (definitions.flatMap ClassDefinition.genClassHierarchyInfo) :=
  fun _ => List.mem_flatMap

/-- A method that a record of the class is read as. -/
def ClassDefinition.Read (definition : ClassDefinition) (methodName : Text)
    (attrs : UInt8) : Prop :=
  ∃ string ∈ definition.written.map fun entry => entry.2.entryText entry.1,
    getCppMethodAttr string = .ok (methodName, attrs)

/-- Clear records with one text say the same. -/
theorem HierarchyRecord.same_of_text {first second : HierarchyRecord}
    (clear : first.IsClear) (otherClear : second.IsClear)
    (same : first.text = second.text) :
    (∀ a b, first.Edge a b ↔ second.Edge a b) ∧
      ∀ c m attrs, first.Reads c m attrs ↔ second.Reads c m attrs := by
  have texts : first.tag = second.tag → first.texts = second.texts := by
    intro sameTag
    rw [text, text, sameTag, List.append_cancel_left_eq] at same
    have all := intercalate_inj
      (fun text listed => (clear_iff.mp (clear text listed)).2)
      (fun text listed => (clear_iff.mp (otherClear text listed)).2)
      (List.cons_ne_nil _ _) (List.cons_ne_nil _ _) same
    rw [List.cons.injEq] at all
    exact Prod.ext all.1 all.2
  cases first with
  | inherits firstClass =>
      cases second with
      | inherits secondClass =>
          obtain ⟨sameName, sameBases⟩ := Prod.mk.inj (texts rfl)
          refine ⟨fun a b => ?_, fun _ _ _ => Iff.rfl⟩
          rw [Edge, Edge, sameName, sameBases]
      | declares secondClass =>
          rw [text, text] at same
          cases (List.cons.inj same).1
  | declares firstClass =>
      cases second with
      | inherits secondClass =>
          rw [text, text] at same
          cases (List.cons.inj same).1
      | declares secondClass =>
          obtain ⟨sameName, sameStrings⟩ := Prod.mk.inj (texts rfl)
          refine ⟨fun _ _ => Iff.rfl, fun c m attrs => ?_⟩
          rw [Reads, Reads, sameName, sameStrings]

/-- The records of a section, with the classes that they are from. -/
theorem Records.exists_sources (listed : Records definitions records) :
    ∃ sources : List HierarchyRecord,
      records = sources.map HierarchyRecord.text ∧
        ∀ record ∈ sources, record.Written definitions := by
  have all : ∀ text ∈ records, ∃ record : HierarchyRecord,
      record.Written definitions ∧ record.text = text := by
    intro text member
    obtain ⟨definition, known, written⟩ := (listed text).mp member
    obtain ⟨record, rfl, some, rfl⟩ :=
      HierarchyRecord.mem_genClassHierarchyInfo.mp written
    exact ⟨record, ⟨known, some⟩, rfl⟩
  clear listed
  induction records with
  | nil => exact ⟨[], rfl, fun _ never => nomatch never⟩
  | cons text rest inductionHypothesis =>
      obtain ⟨record, written, rfl⟩ := all text List.mem_cons_self
      obtain ⟨sources, rfl, restWritten⟩ := inductionHypothesis
        fun other member => all other (List.mem_cons_of_mem _ member)
      refine ⟨record :: sources, rfl, fun other member => ?_⟩
      rcases List.mem_cons.mp member with rfl | inRest
      · exact written
      · exact restWritten other inRest

variable {sources : List HierarchyRecord}

/-- What the records say is what the classes say. -/
theorem exists_edge_iff
    (listed : Records definitions (sources.map HierarchyRecord.text))
    (written : ∀ record ∈ sources, record.Written definitions)
    (clear : ∀ record : HierarchyRecord, record.Written definitions →
      record.IsClear) (first second : Text) :
    (∃ record ∈ sources, record.Edge first second) ↔
      ∃ definition ∈ definitions, first = definition.name.text ∧
        second ∈ definition.bases.map Printed.text := by
  constructor
  · rintro ⟨record, member, edge⟩
    cases record with
    | inherits definition => exact ⟨definition, (written _ member).1, edge⟩
    | declares definition => exact edge.elim
  · rintro ⟨definition, known, edge⟩
    have writtenHere : (HierarchyRecord.inherits definition).Written definitions :=
      ⟨known, List.ne_nil_of_mem edge.2⟩
    obtain ⟨record, member, same⟩ := List.mem_map.mp ((listed _).mpr
      ⟨definition, known, HierarchyRecord.mem_genClassHierarchyInfo.mpr
        ⟨_, rfl, writtenHere.2, rfl⟩⟩)
    exact ⟨record, member, (HierarchyRecord.same_of_text
      (clear record (written record member)) (clear _ writtenHere) same).1
        first second |>.mpr edge⟩

theorem exists_reads_iff
    (listed : Records definitions (sources.map HierarchyRecord.text))
    (written : ∀ record ∈ sources, record.Written definitions)
    (clear : ∀ record : HierarchyRecord, record.Written definitions →
      record.IsClear) (className methodName : Text) (attrs : UInt8) :
    (∃ record ∈ sources, record.Reads className methodName attrs) ↔
      ∃ definition ∈ definitions, className = definition.name.text ∧
        definition.Read methodName attrs := by
  constructor
  · rintro ⟨record, member, reads⟩
    cases record with
    | inherits definition => exact reads.elim
    | declares definition => exact ⟨definition, (written _ member).1, reads⟩
  · rintro ⟨definition, known, reads⟩
    obtain ⟨string, stringListed, _⟩ := reads.2
    have writtenHere : (HierarchyRecord.declares definition).Written definitions :=
      ⟨known, List.ne_nil_of_mem stringListed⟩
    obtain ⟨record, member, same⟩ := List.mem_map.mp ((listed _).mpr
      ⟨definition, known, HierarchyRecord.mem_genClassHierarchyInfo.mpr
        ⟨_, rfl, writtenHere.2, rfl⟩⟩)
    exact ⟨record, member, (HierarchyRecord.same_of_text
      (clear record (written record member)) (clear _ writtenHere) same).2
        className methodName attrs |>.mpr reads⟩

/-- What is read of a section whose records are clear. -/
theorem parseCha_ok (listed : Records definitions records)
    (clear : ∀ record : HierarchyRecord, record.Written definitions →
      record.IsClear)
    (returned : parseCha (emitMCFIInfo records) behind = .ok (tables, left)) :
    left = behind ∧
      (∀ first second, Linked tables.cha first second ↔
        ∃ definition ∈ definitions,
          (first = definition.name.text ∧
            second ∈ definition.bases.map Printed.text) ∨
          (second = definition.name.text ∧
            first ∈ definition.bases.map Printed.text)) ∧
      ∀ className methodName attrs,
        methodOf tables.classes className methodName = some attrs ↔
          ∃ definition ∈ definitions, className = definition.name.text ∧
            definition.Read methodName attrs := by
  obtain ⟨sources, rfl, written⟩ := listed.exists_sources
  obtain ⟨atEnd, holds⟩ := TablesHold.empty.loop_ok
    (fun record member =>
      ⟨clear record (written record member), (written record member).2⟩) returned
  refine ⟨atEnd, fun first second => ?_, fun className methodName attrs => ?_⟩
  · rw [holds.edges]
    simp only [List.nil_append, and_or_left, exists_or,
      exists_edge_iff listed written clear]
  · rw [holds.methods]
    exact exists_reads_iff listed written clear className methodName attrs

/-- A section of clear records is read when no method gets two attribute bytes. -/
theorem parseCha_returns (listed : Records definitions records)
    (clear : ∀ record : HierarchyRecord, record.Written definitions →
      record.IsClear)
    (agree : ∀ first ∈ definitions, ∀ second ∈ definitions,
      first.name.text = second.name.text → ∀ methodName a b,
        first.Read methodName a → second.Read methodName b → a = b) :
    ∃ tables, parseCha (emitMCFIInfo records) behind = .ok (tables, behind) := by
  obtain ⟨sources, rfl, written⟩ := listed.exists_sources
  refine TablesHold.empty.loop_returns
    (fun record member =>
      ⟨clear record (written record member), (written record member).2⟩) ?_ ?_
  · have enough := length_le_emitMCFIInfo (sources.map HierarchyRecord.text)
    rw [List.length_map] at enough
    omega
  · intro className methodName a b first second
    obtain ⟨one, oneKnown, rfl, oneReads⟩ :=
      (exists_reads_iff listed written clear className methodName a).mp first
    obtain ⟨other, otherKnown, same, otherReads⟩ :=
      (exists_reads_iff listed written clear _ methodName b).mp second
    exact agree one oneKnown other otherKnown same methodName a b oneReads
      otherReads

end WholeSection

section RoundTrip

variable {definitions : List ClassDefinition} {records : List Text}
  {tables : ClassTables} {behind left : Text}

/-- The tables hold the edges and the methods of the classes. -/
structure Survives (definitions : List ClassDefinition) (tables : ClassTables) :
    Prop where
  edges : ∀ first second, Linked tables.cha first second ↔
    ∃ definition ∈ definitions,
      (first = definition.name.text ∧
        second ∈ definition.bases.map Printed.text) ∨
      (second = definition.name.text ∧
        first ∈ definition.bases.map Printed.text)
  methods : ∀ className methodName attrs,
    methodOf tables.classes className methodName = some attrs ↔
      ∃ definition ∈ definitions, className = definition.name.text ∧
        (methodName, attrs) ∈ definition.methodTable

/-- No written name has a `#` in it. -/
structure WithoutSharps (definitions : List ClassDefinition) : Prop where
  classes : ∀ definition ∈ definitions,
    definition.bases ≠ [] ∨ definition.methodTable ≠ [] →
      '#' ∉ definition.name.text
  bases : ∀ definition ∈ definitions, ∀ base ∈ definition.bases,
    '#' ∉ base.text
  methods : ∀ definition ∈ definitions, ∀ entry ∈ definition.methodTable,
    '#' ∉ entry.1

/--
No written name has a `#` in it, the end of no unqualified method's name looks like
qualifiers, and the definitions of a class agree on its methods.
-/
structure Readable (definitions : List ClassDefinition) : Prop where
  sharps : WithoutSharps definitions
  unqualified : ∀ definition ∈ definitions, ∀ methodName,
    (methodName, 0) ∈ definition.methodTable →
      getCppMethodAttr methodName = .ok (methodName, 0)
  agree : ∀ first ∈ definitions, ∀ second ∈ definitions,
    first.name.text = second.name.text → ∀ methodName a b,
      (methodName, a) ∈ first.methodTable → (methodName, b) ∈ second.methodTable →
        a = b

theorem ClassDefinition.mem_methodTable (definition : ClassDefinition)
    {entry : Text × UInt8} :
    entry ∈ definition.methodTable ↔
      ∃ written ∈ definition.written, (written.1, written.2.attrs) = entry :=
  List.mem_map

/-- The qualifiers of a method bring no delimiter into its entry. -/
theorem ClassMethod.clear_entryText (method : ClassMethod) (name : Text) :
    Clear '#' (method.entryText name) ↔ Clear '#' name := by
  unfold Clear entryText qualifierLetters
  cases method.isConst <;> cases method.isVolatile <;> cases method.isStatic <;>
    cases method.isVirtual <;> simp [or_imp, forall_and, endsAt, nul]

/-- The name of a written method has no NUL in it. -/
theorem ClassDefinition.clear_written_iff (definition : ClassDefinition)
    {entry : Text × ClassMethod} (listed : entry ∈ definition.written) :
    Clear '#' entry.1 ↔ '#' ∉ entry.1 := by
  obtain ⟨method, _, named⟩ := List.mem_filterMap.mp listed
  obtain ⟨name, nameIs, rfl⟩ := Option.map_eq_some_iff.mp named
  unfold ClassMethod.hierarchyName at nameIs
  split at nameIs
  next => cases nameIs
  next =>
    split at nameIs
    next =>
      cases nameIs
      simp [Clear, endsAt, nul]
    next => cases nameIs
  next name nonempty _ =>
    cases nameIs
    exact name.clear_iff

/-- Records of names without `#`s are clear. -/
theorem WithoutSharps.isClear (sharps : WithoutSharps definitions)
    {record : HierarchyRecord} (written : record.Written definitions) :
    record.IsClear := by
  obtain ⟨known, some⟩ := written
  intro text listed
  cases record with
  | inherits definition =>
      rcases List.mem_cons.mp listed with rfl | listed
      · apply definition.name.clear_iff.mpr
        exact sharps.classes definition known
          (Or.inl fun none => some (by simp [HierarchyRecord.texts, none]))
      · obtain ⟨base, isBase, rfl⟩ := List.mem_map.mp listed
        exact base.clear_iff.mpr (sharps.bases definition known base isBase)
  | declares definition =>
      rcases List.mem_cons.mp listed with rfl | listed
      · apply definition.name.clear_iff.mpr
        refine sharps.classes definition known (Or.inr fun none => some ?_)
        have noMethods : definition.written = [] := List.map_eq_nil_iff.mp none
        simp [HierarchyRecord.texts, noMethods]
      · obtain ⟨entry, isWritten, rfl⟩ := List.mem_map.mp listed
        apply (entry.2.clear_entryText entry.1).mpr
        apply (definition.clear_written_iff isWritten).mpr
        exact sharps.methods definition known (entry.1, entry.2.attrs)
          (definition.mem_methodTable.mpr ⟨entry, isWritten, rfl⟩)

/-- Classes that survive have names without `#`s, as what is read has none. -/
theorem Survives.sharps (survives : Survives definitions tables)
    (names : NamesClear tables) : WithoutSharps definitions := by
  have noSharp : ∀ {text : Text}, Clear '#' text → '#' ∉ text :=
    fun clear => (clear_iff.mp clear).2
  have edge : ∀ definition ∈ definitions, ∀ base ∈ definition.bases,
      Linked tables.cha definition.name.text base.text :=
    fun definition known base isBase => (survives.edges _ _).mpr
      ⟨definition, known, Or.inl ⟨rfl, List.mem_map_of_mem isBase⟩⟩
  have method : ∀ definition ∈ definitions, ∀ entry ∈ definition.methodTable,
      methodOf tables.classes definition.name.text entry.1 = some entry.2 :=
    fun definition known entry listed => (survives.methods _ _ _).mpr
      ⟨definition, known, rfl, listed⟩
  refine ⟨fun definition known some => ?_, fun definition known base isBase => ?_,
    fun definition known entry listed => ?_⟩
  · rcases some with some | some
    · obtain ⟨base, isBase⟩ := List.exists_mem_of_ne_nil _ some
      exact noSharp (names.edges _ _ (edge definition known base isBase)).1
    · obtain ⟨entry, listed⟩ := List.exists_mem_of_ne_nil _ some
      exact noSharp (names.methods _ _ _ (method definition known entry listed)).1
  · exact noSharp (names.edges _ _ (edge definition known base isBase)).2
  · exact noSharp (names.methods _ _ _ (method definition known entry listed)).2

/-- A written method is read as itself, or has no qualifiers. -/
theorem ClassDefinition.read_written (definition : ClassDefinition)
    {entry : Text × ClassMethod} (listed : entry ∈ definition.written)
    (unqualified : entry.2.attrs = 0 →
      getCppMethodAttr entry.1 = .ok (entry.1, 0)) :
    getCppMethodAttr (entry.2.entryText entry.1) =
      .ok (entry.1, entry.2.attrs) := by
  by_cases plain : entry.2.attrs = 0
  · rw [entry.2.entryText_plain entry.1 plain, unqualified plain, plain]
  · exact getCppMethodAttr_qualified entry.2 (definition.written_nonempty listed)
      plain

/-- Readable classes are read as they are. -/
theorem Readable.read_iff (readable : Readable definitions)
    {definition : ClassDefinition} (known : definition ∈ definitions)
    (methodName : Text) (attrs : UInt8) :
    definition.Read methodName attrs ↔
      (methodName, attrs) ∈ definition.methodTable := by
  have read : ∀ entry ∈ definition.written,
      getCppMethodAttr (entry.2.entryText entry.1) =
        .ok (entry.1, entry.2.attrs) := by
    intro entry listed
    refine definition.read_written listed fun plain => ?_
    apply readable.unqualified definition known
    exact definition.mem_methodTable.mpr ⟨entry, listed, by rw [plain]⟩
  rw [definition.mem_methodTable]
  constructor
  · rintro ⟨string, listed, isRead⟩
    obtain ⟨entry, isWritten, rfl⟩ := List.mem_map.mp listed
    rw [read entry isWritten] at isRead
    exact ⟨entry, isWritten, Except.ok.inj isRead⟩
  · rintro ⟨entry, isWritten, same⟩
    exact ⟨_, List.mem_map_of_mem isWritten, same ▸ read entry isWritten⟩

/--
When the methods that are read are those of the classes, no unqualified name is cut:
one that is cut would have to be read of a longer name that is cut.
-/
theorem Survives.unqualified (survives : Survives definitions tables)
    (holds : ∀ className methodName attrs,
      methodOf tables.classes className methodName = some attrs ↔
        ∃ definition ∈ definitions, className = definition.name.text ∧
          definition.Read methodName attrs)
    {definition : ClassDefinition} (known : definition ∈ definitions)
    {methodName : Text} (listed : (methodName, 0) ∈ definition.methodTable) :
    getCppMethodAttr methodName = .ok (methodName, 0) := by
  obtain ⟨bound, bounded⟩ : ∃ bound, ∀ other ∈ definitions,
      ∀ entry ∈ other.methodTable, entry.1.length ≤ bound := by
    obtain ⟨bound, bounds⟩ := Finset.exists_le
      ((definitions.flatMap ClassDefinition.methodTable).map fun entry =>
        entry.1.length).toFinset
    refine ⟨bound, fun other otherKnown entry otherListed => bounds _ ?_⟩
    exact List.mem_toFinset.mpr (List.mem_map_of_mem
      (List.mem_flatMap.mpr ⟨other, otherKnown, otherListed⟩))
  generalize roomIs : bound - methodName.length = room
  induction room using Nat.strong_induction_on generalizing definition methodName with
  | _ room inductionHypothesis =>
      obtain ⟨other, otherKnown, _, string, stringListed, read⟩ :=
        (holds _ methodName 0).mp
          ((survives.methods _ _ _).mpr ⟨definition, known, rfl, listed⟩)
      obtain ⟨entry, isWritten, rfl⟩ := List.mem_map.mp stringListed
      by_cases plain : entry.2.attrs = 0
      · have entryListed : (entry.1, 0) ∈ other.methodTable :=
          other.mem_methodTable.mpr ⟨entry, isWritten, by rw [plain]⟩
        rw [entry.2.entryText_plain entry.1 plain] at read
        rcases getCppMethodAttr_ok read with ⟨same, _⟩ | ⟨rest, longer⟩
        · rwa [← same] at read
        · have short := bounded other otherKnown _ entryListed
          have more : methodName.length < entry.1.length := by
            rw [longer, List.length_append, List.length_cons]
            omega
          have uncut := inductionHypothesis (bound - entry.1.length)
            (by dsimp only at short; omega) otherKnown entryListed rfl
          rw [uncut] at read
          have same := (Prod.mk.inj (Except.ok.inj read)).1
          rw [same] at more
          exact absurd more (lt_irrefl _)
      · rw [getCppMethodAttr_qualified entry.2 (other.written_nonempty isWritten)
          plain] at read
        exact absurd (Prod.mk.inj (Except.ok.inj read)).2 plain

/--
For any classes, and their records in any order: the section is read as the classes,
and to its end, exactly when the names are readable.
-/
theorem class_hierarchy_survives
    (listed : Records definitions records) :
    (∃ tables, parseCha (emitMCFIInfo records) behind = .ok (tables, behind) ∧
      Survives definitions tables) ↔ Readable definitions := by
  constructor
  · rintro ⟨tables, returned, survives⟩
    have sharps := survives.sharps (parseCha_clear returned)
    obtain ⟨_, _, holds⟩ := parseCha_ok listed (fun _ => sharps.isClear) returned
    refine ⟨sharps, fun definition known methodName =>
      survives.unqualified holds known, ?_⟩
    intro first firstKnown second secondKnown same methodName a b firstHas secondHas
    have firstHeld := (survives.methods _ _ _).mpr
      ⟨first, firstKnown, rfl, firstHas⟩
    have secondHeld := (survives.methods _ _ _).mpr
      ⟨second, secondKnown, same, secondHas⟩
    rw [firstHeld] at secondHeld
    exact Option.some.inj secondHeld
  · intro readable
    have clear := fun record : HierarchyRecord => @WithoutSharps.isClear definitions
      readable.sharps record
    obtain ⟨tables, returned⟩ := @parseCha_returns definitions records behind listed
      clear fun first firstKnown second secondKnown same methodName a b => by
        rw [readable.read_iff firstKnown, readable.read_iff secondKnown]
        exact readable.agree first firstKnown second secondKnown same methodName a b
    obtain ⟨_, edges, methods⟩ := parseCha_ok listed clear returned
    refine ⟨tables, returned, edges, fun className methodName attrs => ?_⟩
    rw [methods]
    constructor
    · rintro ⟨definition, known, same, read⟩
      exact ⟨definition, known, same, (readable.read_iff known _ _).mp read⟩
    · rintro ⟨definition, known, same, read⟩
      exact ⟨definition, known, same, (readable.read_iff known _ _).mpr read⟩

/-- A class with a base, a qualified method and an unqualified one. -/
theorem class_hierarchy_survives_counter :
    let counter : ClassDefinition :=
      { name := ⟨"Counter".toList, by decide⟩
        bases := [⟨"Base".toList, by decide⟩]
        methods := [
          ⟨.method ⟨"get() const".toList, by decide⟩ (by decide),
            true, false, false, true⟩,
          ⟨.method ⟨"set(int)".toList, by decide⟩ (by decide),
            false, false, false, false⟩] }
    ∃ tables, parseCha (emitMCFIInfo counter.genClassHierarchyInfo) [] =
      .ok (tables, []) ∧ Survives [counter] tables := by
  intro counter
  have listed : Records [counter] counter.genClassHierarchyInfo := by
    simpa using records_flatMap [counter]
  have table : counter.methodTable =
      [("get() const".toList, 9), ("set(int)".toList, 0)] := by decide
  refine (class_hierarchy_survives listed).mpr ⟨⟨?_, ?_, ?_⟩, ?_, ?_⟩
  · decide
  · decide
  · decide
  · intro definition known methodName has
    rw [List.mem_singleton.mp known, table] at has
    simp only [List.mem_cons, Prod.mk.injEq, List.not_mem_nil, or_false] at has
    rcases has with ⟨_, never⟩ | ⟨rfl, _⟩
    · exact absurd never (by decide)
    · decide
  · intro first firstKnown second secondKnown _ methodName a b firstHas secondHas
    rw [List.mem_singleton.mp firstKnown, table] at firstHas
    rw [List.mem_singleton.mp secondKnown, table] at secondHas
    simp only [List.mem_cons, Prod.mk.injEq, List.not_mem_nil, or_false] at *
    rcases firstHas with ⟨rfl, rfl⟩ | ⟨rfl, rfl⟩
    · rcases secondHas with ⟨_, rfl⟩ | ⟨never, _⟩
      · rfl
      · exact absurd never (by decide)
    · rcases secondHas with ⟨never, _⟩ | ⟨_, rfl⟩
      · exact absurd never (by decide)
      · rfl

/-- The class of a template applied to a closure has a `#` in its name. -/
theorem class_hierarchy_lost :
    ¬ ∀ (definitions : List ClassDefinition) (records : List Text) (behind : Text),
      Records definitions records →
        ∃ tables, parseCha (emitMCFIInfo records) behind = .ok (tables, behind) ∧
          Survives definitions tables := by
  intro all
  let box : ClassDefinition :=
    { name := ⟨"Box<main::\x7blambda()#1\x7d>".toList, by decide⟩
      bases := []
      methods := [⟨.method ⟨"get()".toList, by decide⟩ (by decide),
        false, false, false, false⟩] }
  obtain ⟨tables, returned, survives⟩ := all [box] _ [] (records_flatMap [box])
  have sharps := survives.sharps (parseCha_clear returned)
  exact sharps.classes box (List.mem_singleton_self box)
    (Or.inr (List.cons_ne_nil _ _)) (by decide)

end RoundTrip

end Mcfi
