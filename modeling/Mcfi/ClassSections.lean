import Mcfi.Graph
import Mcfi.Metadata
import Mcfi.Sections

namespace Mcfi

open Delimited LinkMap

/-!
# Class-hierarchy metadata

The front end writes an `I` record for every class with bases, and an `M` record
with the methods of every class that has some; `parse_cha` reads the records back.
The records are texts between `#`s, and a method's qualifiers follow an `@`.
-/

section Compiler

/-- What a method declaration declares. -/
inductive MethodKind where
  | constructor
  | destructor
  | method (name : Printed) (nonempty : name.text ≠ [])

/-- A method declaration; a method's name is its canonical name behind its class. -/
structure ClassMethod where
  kind : MethodKind
  isConst : Bool
  isVolatile : Bool
  isStatic : Bool
  isVirtual : Bool

/-- A class definition, with the canonical names of the class and its bases. -/
structure ClassDefinition where
  name : Printed
  bases : List Printed
  methods : List ClassMethod

namespace ClassMethod

variable (method : ClassMethod)

/-- The name of a method in the hierarchy, if the method is written at all. -/
def hierarchyName : Option Text :=
  match method.kind with
  | .constructor => none
  | .destructor => if method.isVirtual then some ['~'] else none
  | .method name _ => some name.text

/-- The letters of the qualifiers. -/
def qualifierLetters : Text :=
  (if method.isConst then ['c'] else []) ++
    (if method.isVolatile then ['o'] else []) ++
      (if method.isStatic then ['s'] else []) ++
        if method.isVirtual then ['v'] else []

/-- A method's name and its qualifiers, without the `#` behind them. -/
def entryText (name : Text) : Text :=
  name ++ if method.isConst || method.isVolatile || method.isStatic ||
    method.isVirtual then '@' :: method.qualifierLetters else []

/-- The attribute bits of a method. -/
def attrs : UInt8 :=
  (if method.isConst then Qualifier.constant.bit else 0) |||
    (if method.isVolatile then Qualifier.volatile.bit else 0) |||
      (if method.isStatic then Qualifier.static.bit else 0) |||
        if method.isVirtual then Qualifier.virtual.bit else 0

end ClassMethod

namespace ClassDefinition

variable (definition : ClassDefinition)

/-- The written methods of a class, with their names. -/
def written : List (Text × ClassMethod) :=
  definition.methods.filterMap fun method =>
    method.hierarchyName.map fun name => (name, method)

/-- A record of texts with a `#` behind each, the last one erased. -/
def record (tag : Text) (texts : List Text) : Text :=
  tag ++ (texts.flatMap fun text => text ++ ['#']).dropLast

/-- `genClassHierarchyInfo`. -/
def genClassHierarchyInfo : List Text :=
  (if definition.bases.isEmpty then [] else
    [record "I@".toList
      (definition.name.text :: definition.bases.map Printed.text)]) ++
  if definition.written.isEmpty then [] else
    [record "M@".toList (definition.name.text ::
      definition.written.map fun entry => entry.2.entryText entry.1)]

/-- The methods of a class with their attribute bits. -/
def methodTable : List (Text × UInt8) :=
  definition.written.map fun entry => (entry.1, entry.2.attrs)

end ClassDefinition

end Compiler

section Runtime

/-- The bit of a qualifier letter, in `_get_cpp_method_attr`. -/
def letterBit : Char → UInt8
  | 'c' => Qualifier.constant.bit
  | 'o' => Qualifier.volatile.bit
  | 's' => Qualifier.static.bit
  | 'v' => Qualifier.virtual.bit
  | _ => 0

/--
The backward loop of `_get_cpp_method_attr`, on the bytes from its position down to
the first one.
-/
def scanAttrs : Nat → UInt8 → Text → UInt8 × Text
  | counter + 1, attrs, c :: before :: rest =>
      if c = '@' then (attrs, c :: before :: rest)
      else scanAttrs counter (attrs ||| letterBit c) (before :: rest)
  | _, attrs, position => (attrs, position)

/--
`_get_cpp_method_attr`: the name and the attributes.  For an empty name the loop
would start before the string.
-/
def getCppMethodAttr (string : Text) : Rt (Text × UInt8) :=
  if string.isEmpty then
    .error (.pageFault "_get_cpp_method_attr")
  else
    let (attrs, position) := scanAttrs 5 0 string.reverse
    match position with
    | '@' :: before => .ok (before.reverse, attrs)
    | _ => .ok (string, 0)

/-- The class tables and the hierarchy that the parser fills. -/
structure ClassTables where
  classes : OrdDict Text (OrdDict Text UInt8)
  cha : LinkMap Text Text

/-- `parse_inheritance`. -/
def parseInheritance (cursor : Text) (cha : LinkMap Text Text) :
    Rt (LinkMap Text Text × Text) := do
  let (subClass, stop, cursor) ← getStringBeforeSymbol '#' cursor
  if stop then
    return (cha, cursor)
  else
    whileNotStop '#' (fun superClass cha => return gAddEdge cha subClass superClass)
      cursor.length cursor cha

/-- `parse_classes`, the body of its loop. -/
def addMethod (className string : Text)
    (classes : OrdDict Text (OrdDict Text UInt8)) :
    Rt (OrdDict Text (OrdDict Text UInt8)) := do
  let (methodName, attrs) ← getCppMethodAttr string
  let methods := (dictFind classes className).getD ∅
  match dictFind methods methodName with
  | none =>
      let methods ← dictAdd methods methodName attrs
      return classes.modify className fun _ => methods
  | some old =>
      if old ≠ attrs then
        .error (.quit "Duplicated method name %s in class %s\n")
      else
        return classes

/-- `parse_classes`. -/
def parseClasses (cursor : Text) (classes : OrdDict Text (OrdDict Text UInt8)) :
    Rt (OrdDict Text (OrdDict Text UInt8) × Text) := do
  let (className, stop, cursor) ← getStringBeforeSymbol '#' cursor
  let classes ←
    if dictIn classes className then pure classes
    else dictAdd classes className ∅
  if stop then
    return (classes, cursor)
  else
    whileNotStop '#' (addMethod className) cursor.length cursor classes

/-- `parse_cha`, the switch of its loop. -/
def parseChaRecord (cursor : Text) (tables : ClassTables) :
    Rt (ClassTables × Text) :=
  match cursor with
  | 'I' :: cursor => do
      let (cha, cursor) ← parseInheritance (cursor.drop 1) tables.cha
      return ({ tables with cha := cha }, cursor)
  | 'M' :: cursor => do
      let (classes, cursor) ← parseClasses (cursor.drop 1) tables.classes
      return ({ tables with classes := classes }, cursor)
  | _ => .error (.quit "Invalid cha info at offset %ld, %s\n")

/-- `parse_cha`, its loop; the section ends in front of what is behind it. -/
def parseCha.loop (behind : Text) : Nat → Text → ClassTables →
    Rt (ClassTables × Text)
  | 0, _, _ => .error (.diverged "parse_cha")
  | fuel + 1, cursor, tables =>
      if cursor.length ≤ behind.length then
        return (tables, cursor)
      else do
        let (tables, cursor) ← parseChaRecord cursor tables
        parseCha.loop behind fuel cursor tables

/-- `parse_cha`, with where the cursor is left. -/
def parseCha (content behind : Text) : Rt (ClassTables × Text) :=
  parseCha.loop behind (content.length + 1) (content ++ behind) ⟨∅, ∅⟩

end Runtime

section Attributes

/-- The letters say what the attribute byte says. -/
theorem ClassMethod.attrs_eq_letters (method : ClassMethod) :
    method.qualifierLetters.reverse.foldl
        (fun attrs letter => attrs ||| letterBit letter) 0 = method.attrs ∧
      '@' ∉ method.qualifierLetters ∧ method.qualifierLetters.length ≤ 4 ∧
        (method.attrs = 0 ↔ (method.isConst || method.isVolatile ||
          method.isStatic || method.isVirtual) = false) := by
  unfold ClassMethod.qualifierLetters ClassMethod.attrs
  cases method.isConst <;> cases method.isVolatile <;> cases method.isStatic <;>
    cases method.isVirtual <;> decide

/-- The loop stops at the mark when it gets there. -/
theorem scanAttrs_letters
    {letters rest : Text} {last : Char} {counter : Nat} (attrs : UInt8)
    (noMark : '@' ∉ letters) (short : letters.length ≤ counter) :
    scanAttrs counter attrs (letters ++ '@' :: last :: rest) =
      (letters.foldl (fun attrs letter => attrs ||| letterBit letter) attrs,
        '@' :: last :: rest) := by
  induction letters generalizing counter attrs with
  | nil =>
      cases counter with
      | zero => rfl
      | succ counter => exact if_pos rfl
  | cons letter others inductionHypothesis =>
      obtain ⟨counter, rfl⟩ : ∃ fewer, counter = fewer + 1 := by
        cases counter with
        | zero => cases short
        | succ fewer => exact ⟨fewer, rfl⟩
      have notHere : letter ≠ '@' := by
        rintro rfl
        exact noMark List.mem_cons_self
      have next := inductionHypothesis (attrs ||| letterBit letter)
        (fun listed => noMark (List.mem_cons_of_mem _ listed))
        (Nat.le_of_succ_le_succ short)
      cases others with
      | nil => exact (if_neg notHere).trans next
      | cons second more => exact (if_neg notHere).trans next

/-- The qualifiers of a method are read back. -/
theorem getCppMethodAttr_qualified (method : ClassMethod) {name : Text}
    (nonempty : name ≠ []) (qualified : method.attrs ≠ 0) :
    getCppMethodAttr (method.entryText name) = .ok (name, method.attrs) := by
  obtain ⟨lettersAre, noMark, short, plain⟩ := method.attrs_eq_letters
  obtain ⟨last, before, reversed⟩ := List.exists_cons_of_ne_nil
    (List.reverse_ne_nil_iff.mpr nonempty)
  have textIs : method.entryText name =
      name ++ '@' :: method.qualifierLetters := by
    rw [ClassMethod.entryText,
      if_pos ((Bool.not_eq_false _).mp (mt plain.mpr qualified))]
  have scanned := @scanAttrs_letters method.qualifierLetters.reverse before last 5 0
    (by simpa using noMark) (by rw [List.length_reverse]; omega)
  rw [lettersAre] at scanned
  rw [textIs, getCppMethodAttr, if_neg (by simp)]
  simp only [List.reverse_append, List.reverse_cons, List.append_assoc,
    List.singleton_append, reversed, scanned]
  rw [← List.reverse_cons, ← reversed, List.reverse_reverse]

/-- A string that is not empty is read. -/
theorem getCppMethodAttr_returns {string : Text} (nonempty : string ≠ []) :
    ∃ entry, getCppMethodAttr string = .ok entry := by
  unfold getCppMethodAttr
  rw [if_neg (by simpa using nonempty)]
  dsimp only
  split
  next => exact ⟨_, rfl⟩
  next => exact ⟨_, rfl⟩

/-- A method without qualifiers is written as its name. -/
theorem ClassMethod.entryText_plain (method : ClassMethod) (name : Text)
    (plain : method.attrs = 0) : method.entryText name = name := by
  rw [entryText, if_neg (by simp [method.attrs_eq_letters.2.2.2.mp plain]),
    List.append_nil]

/-- The loop goes back over letters of the string. -/
theorem scanAttrs_suffix (counter : Nat) (attrs : UInt8) (position : Text) :
    (scanAttrs counter attrs position).2 <:+ position := by
  fun_induction scanAttrs counter attrs position with
  | case1 => exact List.suffix_refl _
  | case2 counter attrs c before rest notHere inductionHypothesis =>
      exact inductionHypothesis.trans (List.suffix_cons _ _)
  | case3 => exact List.suffix_refl _

/-- The name is the string, without attributes, or ends in front of a mark. -/
theorem getCppMethodAttr_ok {string name : Text} {attrs : UInt8}
    (read : getCppMethodAttr string = .ok (name, attrs)) :
    (name = string ∧ attrs = 0) ∨ ∃ rest, string = name ++ '@' :: rest := by
  unfold getCppMethodAttr at read
  split at read
  next => cases read
  next =>
    have suffix := scanAttrs_suffix 5 0 string.reverse
    cases scanned : scanAttrs 5 0 string.reverse with
    | mk found position =>
        simp only [scanned] at read suffix
        split at read
        next before =>
          cases read
          obtain ⟨letters, split⟩ := suffix
          refine Or.inr ⟨letters.reverse, ?_⟩
          rw [← List.reverse_reverse string, ← split]
          simp
        next =>
          cases read
          exact Or.inl ⟨rfl, rfl⟩

/-- A method that is written has a name. -/
theorem ClassDefinition.written_nonempty (definition : ClassDefinition)
    {entry : Text × ClassMethod} (listed : entry ∈ definition.written) :
    entry.1 ≠ [] := by
  obtain ⟨method, _, named⟩ := List.mem_filterMap.mp listed
  obtain ⟨name, nameIs, rfl⟩ := Option.map_eq_some_iff.mp named
  unfold ClassMethod.hierarchyName at nameIs
  split at nameIs
  next => cases nameIs
  next =>
    split at nameIs
    next =>
      cases nameIs
      exact List.cons_ne_nil _ _
    next => cases nameIs
  next name nonempty _ =>
    cases nameIs
    exact nonempty

/-- So is what is written for it. -/
theorem ClassDefinition.entryText_nonempty (definition : ClassDefinition)
    {string : Text} (listed : string ∈ definition.written.map fun entry =>
      entry.2.entryText entry.1) : string ≠ [] := by
  obtain ⟨entry, written, rfl⟩ := List.mem_map.mp listed
  exact List.append_ne_nil_of_left_ne_nil (definition.written_nonempty written) _

end Attributes

section Tables

variable {classes result : OrdDict Text (OrdDict Text UInt8)}
  {className string name : Text} {attrs : UInt8}

/-- The attributes of a method in the class tables. -/
def methodOf (classes : OrdDict Text (OrdDict Text UInt8))
    (className methodName : Text) : Option UInt8 :=
  (dictFind classes className).bind fun methods => dictFind methods methodName

/-- What a returned body of the loop of `parse_classes` has done. -/
theorem addMethod_ok (present : className ∈ classes)
    (returned : addMethod className string classes = .ok result) :
    ∃ name attrs, getCppMethodAttr string = .ok (name, attrs) ∧
      (∀ query, query ∈ result ↔ query ∈ classes) ∧
        ∀ c m a, methodOf result c m = some a ↔
          methodOf classes c m = some a ∨ c = className ∧ m = name ∧ a = attrs := by
  unfold addMethod at returned
  rw [bind_eq_ok] at returned
  obtain ⟨⟨name, attrs⟩, read, returned⟩ := returned
  obtain ⟨methods, entry⟩ := OrdDict.exists_find_of_mem present
  refine ⟨name, attrs, read, ?_⟩
  simp only [dictFind, entry, Option.getD_some] at returned
  split at returned
  next missing =>
    rw [bind_eq_ok] at returned
    obtain ⟨changed, added, returned⟩ := returned
    obtain ⟨fresh, rfl⟩ := dictAdd_eq_ok.mp added
    cases returned
    refine ⟨fun query => OrdDict.mem_modify, fun c m a => ?_⟩
    simp only [methodOf, dictFind, OrdDict.find_modify]
    by_cases here : c = className
    · subst here
      simp only [entry, if_true, Option.map_some, Option.bind_some,
        OrdDict.find_insertNew, true_and]
      by_cases same : m = name
      · subst same
        simp [fresh, missing, eq_comm]
      · simp [same]
    · simp [here]
  next old found =>
    split at returned
    next => cases returned
    next agree =>
      rw [not_not] at agree
      cases returned
      refine ⟨fun query => Iff.rfl, fun c m a => ?_⟩
      constructor
      · exact Or.inl
      · rintro (held | ⟨rfl, rfl, rfl⟩)
        · exact held
        · simp [methodOf, dictFind, entry, found, agree]

/-- The body returns when the method is new or has the same attributes. -/
theorem addMethod_returns (present : className ∈ classes)
    (read : getCppMethodAttr string = .ok (name, attrs))
    (agrees : ∀ old, methodOf classes className name = some old → old = attrs) :
    ∃ result, addMethod className string classes = .ok result := by
  obtain ⟨methods, entry⟩ := OrdDict.exists_find_of_mem present
  simp only [addMethod, read, bind, Except.bind, dictFind, entry,
    Option.getD_some]
  cases found : methods.find name with
  | none =>
      rw [dictAdd_eq_ok.mpr ⟨OrdDict.find_eq_none.mp found, rfl⟩]
      exact ⟨_, rfl⟩
  | some old =>
      have same := agrees old (by simp [methodOf, dictFind, entry, found])
      simp only [same, ne_eq, not_true_eq_false, if_false]
      exact ⟨classes, rfl⟩

/-- What the loop of `parse_classes` has done with the strings it took. -/
theorem addMethods_ok {strings : List Text} (present : className ∈ classes)
    (returned : strings.foldlM (fun classes string =>
      addMethod className string classes) classes = .ok result) (c m : Text)
    (a : UInt8) :
    methodOf result c m = some a ↔ methodOf classes c m = some a ∨
      c = className ∧ ∃ string ∈ strings,
        getCppMethodAttr string = .ok (m, a) := by
  induction strings generalizing classes with
  | nil =>
      cases returned
      simp
  | cons string rest inductionHypothesis =>
      rw [List.foldlM_cons, bind_eq_ok] at returned
      obtain ⟨next, first, later⟩ := returned
      obtain ⟨name, attrs, read, sameKeys, added⟩ := addMethod_ok present first
      rw [inductionHypothesis ((sameKeys className).mpr present) later, added,
        List.exists_mem_cons_iff, read, Except.ok.injEq, Prod.mk.injEq,
        eq_comm (a := name), eq_comm (a := attrs)]
      tauto

/-- The loop returns when no method gets two attribute bytes. -/
theorem addMethods_returns {strings : List Text} (present : className ∈ classes)
    (reads : ∀ string ∈ strings, ∃ entry, getCppMethodAttr string = .ok entry)
    (agree : ∀ m a b,
      (methodOf classes className m = some a ∨
        ∃ string ∈ strings, getCppMethodAttr string = .ok (m, a)) →
      (methodOf classes className m = some b ∨
        ∃ string ∈ strings, getCppMethodAttr string = .ok (m, b)) → a = b) :
    ∃ result, strings.foldlM (fun classes string =>
      addMethod className string classes) classes = .ok result := by
  induction strings generalizing classes with
  | nil => exact ⟨classes, rfl⟩
  | cons string rest inductionHypothesis =>
      obtain ⟨⟨name, attrs⟩, read⟩ := reads string List.mem_cons_self
      have firstKnown : ∃ other ∈ string :: rest,
          getCppMethodAttr other = .ok (name, attrs) :=
        ⟨string, List.mem_cons_self, read⟩
      obtain ⟨next, first⟩ := addMethod_returns present read fun old held =>
        agree name old attrs (Or.inl held) (Or.inr firstKnown)
      obtain ⟨name', attrs', read', sameKeys, added⟩ := addMethod_ok present first
      rw [read, Except.ok.injEq, Prod.mk.injEq] at read'
      obtain ⟨rfl, rfl⟩ := read'
      have known : ∀ m a,
          (methodOf next className m = some a ∨ ∃ other ∈ rest,
            getCppMethodAttr other = .ok (m, a)) →
          methodOf classes className m = some a ∨ ∃ other ∈ string :: rest,
            getCppMethodAttr other = .ok (m, a) := by
        rintro m a (held | ⟨other, listed, otherRead⟩)
        · rcases (added className m a).mp held with old | ⟨_, rfl, rfl⟩
          · exact Or.inl old
          · exact Or.inr firstKnown
        · exact Or.inr ⟨other, List.mem_cons_of_mem _ listed, otherRead⟩
      obtain ⟨result, later⟩ := inductionHypothesis
        ((sameKeys className).mpr present)
        (fun other listed => reads other (List.mem_cons_of_mem _ listed))
        fun m a b first second => agree m a b (known m a first) (known m b second)
      exact ⟨result, by rw [List.foldlM_cons, first]; exact later⟩

/-- A new class has no methods yet. -/
theorem methodOf_insertNew (classes : OrdDict Text (OrdDict Text UInt8))
    (className c m : Text) :
    methodOf (classes.insertNew className ∅) c m = methodOf classes c m := by
  simp only [methodOf, dictFind, OrdDict.find_insertNew]
  split
  next new =>
    obtain ⟨rfl, absent⟩ := new
    simp [OrdDict.find_eq_none.mpr absent]
  next => rfl

end Tables

section Records

variable {behind : Text}

/-- A record of an inheritance is read as its edges. -/
theorem parseInheritance_record {subClass first : Text} {rest : List Text}
    (clear : ∀ text ∈ subClass :: first :: rest, Clear '#' text)
    (cha : LinkMap Text Text) :
    parseInheritance (['#'].intercalate (subClass :: first :: rest) ++ nul :: behind) cha =
      .ok (gAddEdges cha ((first :: rest).map fun base => (subClass, base)),
        behind) := by
  have fuel := length_le_intercalate '#' first rest
  rw [parseInheritance, intercalate_cons, List.append_assoc, List.cons_append,
    getStringBeforeSymbol_symbol (clear subClass List.mem_cons_self) (by decide)]
  change whileNotStop _ _ _ _ _ = _
  rw [whileNotStop_joined (by decide)
    (fun text listed => clear text (List.mem_cons_of_mem _ listed))
    (by rw [List.length_append, List.length_cons]; omega)]
  simp only [List.foldlM_pure, gAddEdges, joinAll, List.foldl_map, gAddEdge]
  rfl

/-- A record of methods enters its class first. -/
theorem parseClasses_eq (cursor : Text)
    (classes : OrdDict Text (OrdDict Text UInt8)) :
    parseClasses cursor classes = (getStringBeforeSymbol '#' cursor >>= fun taken =>
      if taken.2.1 then .ok (classes.insertNew taken.1 ∅, taken.2.2)
      else whileNotStop '#' (addMethod taken.1) taken.2.2.length taken.2.2
        (classes.insertNew taken.1 ∅)) := by
  unfold parseClasses
  cases getStringBeforeSymbol '#' cursor with
  | error fault => rfl
  | ok taken =>
      obtain ⟨className, stop, cursor⟩ := taken
      simp only [bind, Except.bind]
      split
      next present =>
        rw [OrdDict.insertNew_of_mem _ (dictIn_iff.mp present)]
        rfl
      next absent =>
        rw [dictAdd_eq_ok.mpr
          ⟨fun present => absent (dictIn_iff.mpr present), rfl⟩]
        rfl

/-- A record of methods is read as the methods of the class. -/
theorem parseClasses_record {className first : Text} {rest : List Text}
    (clear : ∀ text ∈ className :: first :: rest, Clear '#' text)
    (classes : OrdDict Text (OrdDict Text UInt8)) :
    parseClasses (['#'].intercalate (className :: first :: rest) ++ nul :: behind)
        classes =
      (first :: rest).foldlM (fun classes string =>
          addMethod className string classes) (classes.insertNew className ∅) >>=
        fun classes => .ok (classes, behind) := by
  have fuel := length_le_intercalate '#' first rest
  rw [parseClasses_eq, intercalate_cons, List.append_assoc, List.cons_append,
    getStringBeforeSymbol_symbol (clear className List.mem_cons_self) (by decide)]
  change whileNotStop _ _ _ _ _ = _
  rw [whileNotStop_joined (by decide)
    (fun text listed => clear text (List.mem_cons_of_mem _ listed))
    (by rw [List.length_append, List.length_cons]; omega)]

end Records

/-- A record that `genClassHierarchyInfo` may write for a class. -/
inductive HierarchyRecord where
  | inherits (definition : ClassDefinition)
  | declares (definition : ClassDefinition)

namespace HierarchyRecord

/-- The texts of a record, behind its tag. -/
def texts : HierarchyRecord → Text × List Text
  | inherits definition =>
      (definition.name.text, definition.bases.map Printed.text)
  | declares definition =>
      (definition.name.text,
        definition.written.map fun entry => entry.2.entryText entry.1)

/-- The tag of a record. -/
def tag : HierarchyRecord → Text
  | inherits _ => "I@".toList
  | declares _ => "M@".toList

/-- A record as it is written. -/
def text (record : HierarchyRecord) : Text :=
  record.tag ++ ['#'].intercalate (record.texts.1 :: record.texts.2)

/-- The class of a record. -/
def definition : HierarchyRecord → ClassDefinition
  | inherits definition => definition
  | declares definition => definition

@[simp] theorem definition_inherits (definition : ClassDefinition) :
    (inherits definition).definition = definition :=
  rfl

@[simp] theorem definition_declares (definition : ClassDefinition) :
    (declares definition).definition = definition :=
  rfl

/-- A record that has something to say, about one of the classes. -/
def Written (definitions : List ClassDefinition) (record : HierarchyRecord) :
    Prop :=
  record.definition ∈ definitions ∧ record.texts.2 ≠ []

/-- No delimiter is in a text of the record. -/
def IsClear (record : HierarchyRecord) : Prop :=
  ∀ text ∈ record.texts.1 :: record.texts.2, Clear '#' text

/-- An edge that the record says. -/
def Edge : HierarchyRecord → Text → Text → Prop
  | inherits definition, subClass, superClass =>
      subClass = definition.name.text ∧
        superClass ∈ definition.bases.map Printed.text
  | declares _, _, _ => False

/-- A method that the record is read as. -/
def Reads : HierarchyRecord → Text → Text → UInt8 → Prop
  | inherits _, _, _, _ => False
  | declares definition, className, methodName, attrs =>
      className = definition.name.text ∧ ∃ string ∈
        definition.written.map fun entry => entry.2.entryText entry.1,
          getCppMethodAttr string = .ok (methodName, attrs)

/-- What `genClassHierarchyInfo` writes. -/
theorem mem_genClassHierarchyInfo {definition : ClassDefinition} {text : Text} :
    text ∈ definition.genClassHierarchyInfo ↔
      ∃ record : HierarchyRecord, record.definition = definition ∧
        record.texts.2 ≠ [] ∧ text = record.text := by
  have written : ∀ tag (first : Text) rest,
      ClassDefinition.record tag (first :: rest) =
        tag ++ ['#'].intercalate (first :: rest) := fun tag first rest =>
    congrArg _ (dropLast_separated '#' first rest)
  unfold ClassDefinition.genClassHierarchyInfo
  rw [List.mem_append, written, written]
  constructor
  · rintro (listed | listed)
    · split at listed
      next => cases listed
      next some =>
        refine ⟨inherits definition, rfl, ?_, List.mem_singleton.mp listed⟩
        simpa [texts] using some
    · split at listed
      next => cases listed
      next some =>
        refine ⟨declares definition, rfl, ?_, List.mem_singleton.mp listed⟩
        simpa [texts] using some
  · rintro ⟨record, rfl, some, rfl⟩
    cases record with
    | inherits definition =>
        have nonempty : ¬ definition.bases.isEmpty = true := by
          simpa [texts] using some
        exact Or.inl (by rw [definition_inherits, if_neg nonempty]; simp [text, tag,
          texts])
    | declares definition =>
        have nonempty : ¬ definition.written.isEmpty = true := by
          simpa [texts] using some
        exact Or.inr (by rw [definition_declares, if_neg nonempty]; simp [text, tag,
          texts])

end HierarchyRecord

/-- What the tables hold is what the records are read as. -/
structure TablesHold (tables : ClassTables) (records : List HierarchyRecord) :
    Prop where
  edges : ∀ first second, Linked tables.cha first second ↔
    ∃ record ∈ records, record.Edge first second ∨ record.Edge second first
  methods : ∀ className methodName attrs,
    methodOf tables.classes className methodName = some attrs ↔
      ∃ record ∈ records, record.Reads className methodName attrs

namespace TablesHold

variable {tables result : ClassTables} {records : List HierarchyRecord}
  {record : HierarchyRecord} {behind left : Text}

theorem empty : TablesHold ⟨∅, ∅⟩ [] := by
  refine ⟨fun first second => ?_, fun className methodName attrs => ?_⟩
  · simp
  · simp [methodOf, dictFind]

/-- A clear record of an inheritance adds its edges. -/
theorem inherits (holds : TablesHold tables records)
    {definition : ClassDefinition} :
    TablesHold
      { tables with
        cha := gAddEdges tables.cha
          ((definition.bases.map Printed.text).map fun base =>
            (definition.name.text, base)) }
      (records ++ [.inherits definition]) := by
  refine ⟨fun first second => ?_, fun className methodName attrs => ?_⟩
  · simp only [gAddEdges, linked_joinAll, holds.edges, List.mem_append,
      List.mem_singleton, or_and_right, exists_or, exists_eq_left,
      HierarchyRecord.Edge, List.mem_map, Prod.mk.injEq]
    grind
  · rw [holds.methods]
    simp [HierarchyRecord.Reads, or_and_right, exists_or]

/-- A clear record of methods adds what they are read as. -/
theorem declares (holds : TablesHold tables records)
    {definition : ClassDefinition}
    {classes : OrdDict Text (OrdDict Text UInt8)}
    (added : (definition.written.map fun entry => entry.2.entryText entry.1).foldlM
      (fun classes string => addMethod definition.name.text string classes)
      (tables.classes.insertNew definition.name.text ∅) = .ok classes) :
    TablesHold { tables with classes := classes }
      (records ++ [.declares definition]) := by
  refine ⟨fun first second => ?_, fun className methodName attrs => ?_⟩
  · rw [holds.edges]
    simp [HierarchyRecord.Edge, or_and_right, exists_or]
  · have present : definition.name.text ∈
        tables.classes.insertNew definition.name.text ∅ :=
      OrdDict.mem_insertNew.mpr (Or.inl rfl)
    rw [addMethods_ok present added, methodOf_insertNew, holds.methods]
    simp only [List.mem_append, List.mem_singleton, or_and_right, exists_or,
      exists_eq_left, HierarchyRecord.Reads]

/-- How a clear record is read. -/
theorem parseChaRecord_record (clear : record.IsClear)
    (some : record.texts.2 ≠ []) :
    parseChaRecord (record.text ++ nul :: behind) tables =
      match record with
      | .inherits definition => .ok
          ({ tables with
            cha := gAddEdges tables.cha
              ((definition.bases.map Printed.text).map fun base =>
                (definition.name.text, base)) }, behind)
      | .declares definition =>
          (definition.written.map fun entry => entry.2.entryText entry.1).foldlM
              (fun classes string => addMethod definition.name.text string classes)
              (tables.classes.insertNew definition.name.text ∅) >>=
            fun classes => .ok ({ tables with classes := classes }, behind) := by
  obtain ⟨first, rest, textsAre⟩ := List.exists_cons_of_ne_nil some
  unfold HierarchyRecord.IsClear at clear
  rw [textsAre] at clear
  rw [HierarchyRecord.text, textsAre]
  cases record with
  | inherits definition =>
      have bases : definition.bases.map Printed.text = first :: rest := textsAre
      have read := @parseInheritance_record behind definition.name.text first rest
        clear tables.cha
      change parseChaRecord ('I' :: '@' ::
        (['#'].intercalate (definition.name.text :: first :: rest) ++ nul :: behind))
          tables = _
      simp only [parseChaRecord, bases, List.drop_succ_cons, List.drop_zero, read]
      rfl
  | declares definition =>
      have strings : (definition.written.map fun entry =>
        entry.2.entryText entry.1) = first :: rest := textsAre
      have read := @parseClasses_record behind definition.name.text first rest
        clear tables.classes
      change parseChaRecord ('M' :: '@' ::
        (['#'].intercalate (definition.name.text :: first :: rest) ++ nul :: behind))
          tables = _
      simp only [parseChaRecord, strings, List.drop_succ_cons, List.drop_zero,
        read]
      cases (first :: rest).foldlM (fun classes string =>
          addMethod definition.name.text string classes)
          (tables.classes.insertNew definition.name.text ∅) with
      | error fault => rfl
      | ok classes => rfl

/-- A clear record adds what it is read as. -/
theorem record_ok (holds : TablesHold tables records) (clear : record.IsClear)
    (some : record.texts.2 ≠ [])
    (returned : parseChaRecord (record.text ++ nul :: behind) tables =
      .ok (result, left)) :
    left = behind ∧ TablesHold result (records ++ [record]) := by
  rw [parseChaRecord_record clear some] at returned
  cases record with
  | inherits definition =>
      cases returned
      exact ⟨rfl, holds.inherits⟩
  | declares definition =>
      simp only [bind_eq_ok] at returned
      obtain ⟨classes, added, returned⟩ := returned
      cases returned
      exact ⟨rfl, holds.declares added⟩

/-- A clear record is read when no method gets two attribute bytes. -/
theorem record_returns (holds : TablesHold tables records)
    (clear : record.IsClear) (some : record.texts.2 ≠ [])
    (agree : ∀ className methodName first second,
      (∃ other ∈ records ++ [record], other.Reads className methodName first) →
        (∃ other ∈ records ++ [record],
          other.Reads className methodName second) → first = second) :
    ∃ result, parseChaRecord (record.text ++ nul :: behind) tables =
      .ok (result, behind) := by
  rw [parseChaRecord_record clear some]
  cases record with
  | inherits definition => exact ⟨_, rfl⟩
  | declares definition =>
      have known : ∀ m a, (methodOf (tables.classes.insertNew
          definition.name.text ∅) definition.name.text m = Option.some a ∨
            ∃ string ∈ definition.written.map fun entry =>
              entry.2.entryText entry.1,
                getCppMethodAttr string = .ok (m, a)) →
          ∃ other ∈ records ++ [.declares definition],
            other.Reads definition.name.text m a := by
        rintro m a (held | read)
        · rw [methodOf_insertNew, holds.methods] at held
          obtain ⟨other, listed, reads⟩ := held
          exact ⟨other, List.mem_append_left _ listed, reads⟩
        · exact ⟨.declares definition,
            List.mem_append_right _ (List.mem_singleton_self _), rfl, read⟩
      obtain ⟨classes, added⟩ := addMethods_returns
        (OrdDict.mem_insertNew.mpr (Or.inl rfl))
        (fun string listed => getCppMethodAttr_returns
          (definition.entryText_nonempty listed))
        fun m a b first second =>
          agree definition.name.text m a b (known m a first) (known m b second)
      exact ⟨_, bind_eq_ok.mpr ⟨classes, added, rfl⟩⟩

/-- The loop reads all records of a section of clear ones. -/
theorem loop_ok {more : List HierarchyRecord} {fuel : Nat}
    (holds : TablesHold tables records)
    (clear : ∀ record ∈ more, record.IsClear ∧ record.texts.2 ≠ [])
    (returned : parseCha.loop behind fuel
      (emitMCFIInfo (more.map HierarchyRecord.text) ++ behind) tables =
        .ok (result, left)) :
    left = behind ∧ TablesHold result (records ++ more) := by
  induction more generalizing fuel tables records with
  | nil =>
      cases fuel with
      | zero => cases returned
      | succ fuel =>
          change parseCha.loop behind (fuel + 1) behind tables = _ at returned
          rw [parseCha.loop, if_pos le_rfl] at returned
          cases returned
          exact ⟨rfl, by rwa [List.append_nil]⟩
  | cons record rest inductionHypothesis =>
      cases fuel with
      | zero => cases returned
      | succ fuel =>
          obtain ⟨recordClear, some⟩ := clear record List.mem_cons_self
          rw [List.map_cons, emitMCFIInfo_cons, parseCha.loop,
            if_neg (not_at_end _ _ _), bind_eq_ok] at returned
          obtain ⟨⟨next, cursor⟩, first, later⟩ := returned
          obtain ⟨rfl, nextHolds⟩ := holds.record_ok recordClear some first
          have all := inductionHypothesis nextHolds
            (fun other listed => clear other (List.mem_cons_of_mem _ listed)) later
          rwa [List.append_assoc] at all

/-- The loop returns when no method gets two attribute bytes. -/
theorem loop_returns {more : List HierarchyRecord} {fuel : Nat}
    (holds : TablesHold tables records)
    (clear : ∀ record ∈ more, record.IsClear ∧ record.texts.2 ≠ [])
    (enough : more.length < fuel)
    (agree : ∀ className methodName first second,
      (∃ other ∈ records ++ more, other.Reads className methodName first) →
        (∃ other ∈ records ++ more,
          other.Reads className methodName second) → first = second) :
    ∃ result, parseCha.loop behind fuel
      (emitMCFIInfo (more.map HierarchyRecord.text) ++ behind) tables =
        .ok (result, behind) := by
  induction more generalizing fuel tables records with
  | nil =>
      obtain ⟨fuel, rfl⟩ := Nat.exists_eq_succ_of_ne_zero (by omega : fuel ≠ 0)
      change ∃ result, parseCha.loop behind (fuel + 1) behind tables = _
      rw [parseCha.loop, if_pos le_rfl]
      exact ⟨tables, rfl⟩
  | cons record rest inductionHypothesis =>
      obtain ⟨fuel, rfl⟩ := Nat.exists_eq_succ_of_ne_zero (by omega : fuel ≠ 0)
      obtain ⟨recordClear, some⟩ := clear record List.mem_cons_self
      have split : records ++ record :: rest = records ++ [record] ++ rest := by
        rw [List.append_assoc, List.singleton_append]
      rw [split] at agree
      obtain ⟨next, first⟩ := @record_returns tables records record
        (emitMCFIInfo (rest.map HierarchyRecord.text) ++ behind) holds recordClear
        some fun className methodName a b firstReads secondReads => by
          obtain ⟨other, listed, reads⟩ := firstReads
          obtain ⟨another, otherListed, otherReads⟩ := secondReads
          exact agree className methodName a b
            ⟨other, List.mem_append_left _ listed, reads⟩
            ⟨another, List.mem_append_left _ otherListed, otherReads⟩
      obtain ⟨_, nextHolds⟩ := holds.record_ok recordClear some first
      obtain ⟨result, later⟩ := inductionHypothesis nextHolds
        (fun other listed => clear other (List.mem_cons_of_mem _ listed))
        (by simpa using enough) agree
      refine ⟨result, ?_⟩
      rw [List.map_cons, emitMCFIInfo_cons, parseCha.loop,
        if_neg (not_at_end _ _ _), bind_eq_ok]
      exact ⟨_, first, later⟩

end TablesHold

end Mcfi
