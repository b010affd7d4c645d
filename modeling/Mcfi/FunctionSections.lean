import Mathlib.Data.List.TakeWhile
import Mcfi.Metadata
import Mcfi.Sections

namespace Mcfi

open Delimited

/-!
# Function and indirect-call metadata

The back end writes a record of lines for every function and a record of texts
between `#`s for every indirect call; `parse_functions` and `parse_icfs` read them
back.  No string that is printed has a newline in it, but one may have a `#` or a
space.
-/

section Compiler

/-- What `MCFIFuncInfo` says about a function, behind its name. -/
inductive FuncKind where
  | constructor
  | virtualConstructor (className : Printed)
  | instanceMethod (className methodName type : Printed)
  | destructor (className : Printed)
  | other (type : Printed)

/-- What `MCFIFuncInfo` writes about a function. -/
structure FuncInfo where
  name : Printed
  kind : FuncKind
  returns : List Printed
  dtails : List Printed
  itails : List Printed

/-- The lines behind the name. -/
def FuncKind.text : FuncKind → Text
  | constructor => []
  | virtualConstructor className => "C ".toList ++ className.text ++ [newline]
  | instanceMethod className methodName type =>
      "N ".toList ++ (className.text ++ '#' :: methodName.text) ++ [newline] ++
        ("Y ".toList ++ type.text ++ [newline])
  | destructor className => "D ".toList ++ className.text ++ [newline]
  | other type => "Y ".toList ++ type.text ++ [newline]

/-- `addList`. -/
def addList (tag : Char) (list : List Printed) : Text :=
  if list.isEmpty then []
  else tag :: (list.flatMap fun string => ' ' :: string.text) ++ [newline]

/-- `MCFIFuncInfo`, the lines of a record in front of the last one. -/
def FuncInfo.lines (info : FuncInfo) : Text :=
  "\x7b ".toList ++ info.name.text ++ [newline] ++ info.kind.text ++
    (addList 'R' info.returns ++ addList 'T' info.dtails ++
      addList 'I' info.itails)

/-- `MCFIFuncInfo`. -/
def FuncInfo.text (info : FuncInfo) : Text :=
  info.lines ++ ['\x7d']

/-- What the back end says about an indirect call. -/
inductive IndirectCall where
  | virtualMethod (className methodName : Printed)
  | virtualDestructor (className : Printed)
  | methodPointer (className : Printed) (isConst isVolatile : Bool)
      (type : Printed)
  | normal (type : Printed)

/-- An indirect call and its id. -/
structure IndirectCallInfo where
  id : Printed
  call : IndirectCall

/-- The texts of the record of an indirect call. -/
def IndirectCall.text : IndirectCall → Text
  | virtualMethod className methodName =>
      "V#".toList ++ className.text ++ '#' :: methodName.text
  | virtualDestructor className => "D#".toList ++ className.text
  | methodPointer className isConst isVolatile type =>
      "P#".toList ++ className.text ++ '#' :: ((if isConst then ['c'] else []) ++
        if isVolatile then ['o'] else []) ++ '#' :: type.text
  | normal type => "N#".toList ++ type.text

/-- `MCFIx64IndirectCall`, the record it keeps. -/
def IndirectCallInfo.text (info : IndirectCallInfo) : Text :=
  info.id.text ++ '#' :: info.call.text

end Compiler

section Runtime

/-- `struct function_t`, as it is parsed. -/
structure ParsedFunction where
  name : Text
  className : Option Text
  methodName : Option Text
  type : Option Text
  returns : List Text
  dtails : List Text
  itails : List Text
  deriving DecidableEq

/-- `alloc_function`, with the name it is given. -/
def allocFunction (name : Text) : ParsedFunction where
  name := name
  className := none
  methodName := none
  type := none
  returns := []
  dtails := []
  itails := []

/-- What `parse_functions` fills, and the function it is in. -/
structure FunctionTables where
  functions : List ParsedFunction
  ctor : OrdDict Text Text
  current : Option ParsedFunction

/-- The function that the parser is in. -/
def FunctionTables.deref (tables : FunctionTables) : Rt ParsedFunction :=
  match tables.current with
  | some f => .ok f
  | none => .error (.nullDeref "parse_functions")

/-- `_add_node_list`; the symbol behind the list is patched into a NUL. -/
def addNodeList (list : Text) (nodes : List Text) : Rt (List Text) := do
  let (nodes, _) ← whileNotStop ' ' (fun name nodes => return nodes ++ [name])
    (list.length + 1) (list ++ [nul]) nodes
  return nodes

/-- `parse_functions`, the switch of its inner loop. -/
def parseFunctionLine (cursor : Text) (tables : FunctionTables) :
    Rt (FunctionTables × Bool × Text) :=
  match cursor with
  | [] => .error (.pageFault "parse_functions")
  | tag :: rest =>
      let cursor := rest.drop 1
      match tag with
      | '\x7b' => do
          let (name, stop, cursor) ← getStringBeforeSymbol newline cursor
          return ({ tables with current := some (allocFunction name) }, stop,
            cursor)
      | 'N' => do
          let (className, _, cursor) ← getStringBeforeSymbol '#' cursor
          let (methodName, stop, cursor) ← getStringBeforeSymbol newline cursor
          let f ← tables.deref
          return ({ tables with
            current := some { f with
              className := some className
              methodName := some methodName } }, stop, cursor)
      | 'D' => do
          let (className, stop, cursor) ← getStringBeforeSymbol newline cursor
          let f ← tables.deref
          return ({ tables with
            current := some { f with
              className := some className
              methodName := some ['~'] } }, stop, cursor)
      | 'Y' => do
          let (type, stop, cursor) ← getStringBeforeSymbol newline cursor
          let f ← tables.deref
          return ({ tables with current := some { f with type := some type } }, stop,
            cursor)
      | 'T' => do
          let (list, stop, cursor) ← getStringBeforeSymbol newline cursor
          let f ← tables.deref
          let nodes ← addNodeList list f.dtails
          return ({ tables with current := some { f with dtails := nodes } }, stop,
            cursor)
      | 'I' => do
          let (list, stop, cursor) ← getStringBeforeSymbol newline cursor
          let f ← tables.deref
          let nodes ← addNodeList list f.itails
          return ({ tables with current := some { f with itails := nodes } }, stop,
            cursor)
      | 'R' => do
          let (list, stop, cursor) ← getStringBeforeSymbol newline cursor
          let f ← tables.deref
          let nodes ← addNodeList list f.returns
          return ({ tables with current := some { f with returns := nodes } }, stop,
            cursor)
      | 'C' => do
          let f ← tables.deref
          let (ctorName, stop, cursor) ← getStringBeforeSymbol newline cursor
          let ctor ←
            if dictIn tables.ctor f.name then pure tables.ctor
            else dictAdd tables.ctor f.name ctorName
          return ({ tables with ctor := ctor }, stop, cursor)
      | '\x7d' => do
          let f ← tables.deref
          return ({ tables with
            functions := tables.functions ++ [f]
            current := none }, true, cursor)
      | _ => .error (.quit "Functions parsing failed at %lu\n")

/-- `parse_functions`, its inner loop. -/
def parseFunctionLines : Nat → Text → FunctionTables → Rt (FunctionTables × Text)
  | 0, _, _ => .error (.diverged "parse_functions")
  | fuel + 1, cursor, tables => do
      let (tables, stop, cursor) ← parseFunctionLine cursor tables
      if stop then
        return (tables, cursor)
      else
        parseFunctionLines fuel cursor tables

/-- `parse_functions`, its outer loop. -/
def parseFunctions.loop (behind : Text) : Nat → Text → FunctionTables →
    Rt (FunctionTables × Text)
  | 0, _, _ => .error (.diverged "parse_functions")
  | fuel + 1, cursor, tables =>
      if cursor.length ≤ behind.length then
        return (tables, cursor)
      else do
        let (tables, cursor) ← parseFunctionLines (cursor.length + 1) cursor tables
        parseFunctions.loop behind fuel cursor tables

/-- `parse_functions`: the functions, their constructors, and the cursor. -/
def parseFunctions (content behind : Text) :
    Rt (List ParsedFunction × OrdDict Text Text × Text) := do
  let (tables, cursor) ← parseFunctions.loop behind (content.length + 1)
    (content ++ behind) ⟨[], ∅, none⟩
  return (tables.functions, tables.ctor, cursor)

/-- The kind of an indirect call, with the fields that the parser sets for it. -/
inductive ParsedIcfType where
  | virtualMethodCall (className methodName : Text)
  | pointerToMethodCall (className : Text) (attrs : UInt8) (type : Text)
  | normalCall (type : Text)
  deriving DecidableEq

/-- `struct icf_t`, as it is parsed. -/
structure ParsedIcf where
  id : Text
  ity : ParsedIcfType
  deriving DecidableEq

/-- The attributes of a pointer to a method, from its qualifiers. -/
def pointerAttrs : Text → UInt8
  | [_, _] => Qualifier.constant.bit ||| Qualifier.volatile.bit
  | ['c'] => Qualifier.constant.bit
  | [_] => Qualifier.volatile.bit
  | _ => 0

/-- `parse_icfs`, the switch of its loop. -/
def parseIcfType (cursor : Text) : Rt (ParsedIcfType × Text) :=
  match cursor with
  | [] => .error (.pageFault "parse_icfs")
  | tag :: rest =>
      let cursor := rest.drop 1
      match tag with
      | 'V' => do
          let (className, _, cursor) ← getStringBeforeSymbol '#' cursor
          let (methodName, _, cursor) ← getStringBeforeSymbol '#' cursor
          return (.virtualMethodCall className methodName, cursor)
      | 'D' => do
          let (className, _, cursor) ← getStringBeforeSymbol '#' cursor
          return (.virtualMethodCall className ['~'], cursor)
      | 'P' => do
          let (className, _, cursor) ← getStringBeforeSymbol '#' cursor
          let (co, _, cursor) ← getStringBeforeSymbol '#' cursor
          let (type, _, cursor) ← getStringBeforeSymbol '#' cursor
          return (.pointerToMethodCall className (pointerAttrs co) type, cursor)
      | 'N' => do
          let (type, _, cursor) ← getStringBeforeSymbol '#' cursor
          return (.normalCall type, cursor)
      | _ => .error (.quit "ICF parsing failed at %lu\n")

/-- `parse_icfs`, its loop. -/
def parseIcfs.loop (behind : Text) : Nat → Text → List ParsedIcf →
    Rt (List ParsedIcf × Text)
  | 0, _, _ => .error (.diverged "parse_icfs")
  | fuel + 1, cursor, icfs =>
      if cursor.length ≤ behind.length then
        return (icfs, cursor)
      else do
        let (id, _, cursor) ← getStringBeforeSymbol '#' cursor
        let (ity, cursor) ← parseIcfType cursor
        parseIcfs.loop behind fuel cursor (icfs ++ [⟨id, ity⟩])

/-- `parse_icfs`, with where the cursor is left. -/
def parseIcfs (content behind : Text) : Rt (List ParsedIcf × Text) :=
  parseIcfs.loop behind (content.length + 1) (content ++ behind) []

end Runtime

section Lines

variable {tables next last : FunctionTables} {text part more : Text}

/--
The inner loop of `parse_functions` gets over a part of the section, in no more
rounds than the part has characters.
-/
def Consumes (part : Text) (tables next : FunctionTables) : Prop :=
  ∃ rounds, rounds ≤ part.length ∧ ∀ fuel rest,
    parseFunctionLines (fuel + rounds) (part ++ rest) tables =
      parseFunctionLines fuel rest next

theorem Consumes.nothing : Consumes [] tables tables :=
  ⟨0, le_rfl, fun _ _ => rfl⟩

theorem Consumes.trans (first : Consumes part tables next)
    (later : Consumes more next last) : Consumes (part ++ more) tables last := by
  obtain ⟨rounds, short, runs⟩ := first
  obtain ⟨moreRounds, moreShort, moreRuns⟩ := later
  refine ⟨moreRounds + rounds, ?_, fun fuel rest => ?_⟩
  · rw [List.length_append]
    omega
  · rw [← Nat.add_assoc, List.append_assoc, runs, moreRuns]

/-- One line is one round. -/
theorem Consumes.line (some : part ≠ [])
    (read : ∀ rest, parseFunctionLine (part ++ rest) tables =
      .ok (next, false, rest)) : Consumes part tables next := by
  refine ⟨1, List.length_pos_of_ne_nil some, fun fuel rest => ?_⟩
  rw [parseFunctionLines, read rest]
  rfl

/-- A text without NULs and newlines is a line. -/
theorem getStringBeforeSymbol_line (clear : Clear newline text) (rest : Text) :
    getStringBeforeSymbol newline (text ++ [newline] ++ rest) =
      .ok (text, false, rest) := by
  rw [List.append_assoc]
  exact getStringBeforeSymbol_symbol clear (by decide)

theorem Printed.clear_newline (printed : Printed) : Clear newline printed.text :=
  printed.clear_iff.mpr fun listed =>
    printed.ne_control (by decide) newline listed rfl

/-- Pushing every text to a list of nodes. -/
theorem foldlM_push (texts nodes : List Text) :
    texts.foldlM (fun nodes name => (pure (nodes ++ [name]) : Rt (List Text))) nodes =
      .ok (nodes ++ texts) := by
  induction texts generalizing nodes with
  | nil =>
      rw [List.append_nil]
      rfl
  | cons text others inductionHypothesis =>
      have split : nodes ++ text :: others = nodes ++ [text] ++ others :=
        List.append_cons nodes text others
      rw [List.foldlM_cons, split]
      exact inductionHypothesis (nodes ++ [text])

/-- `_add_node_list` splits a list at its spaces. -/
theorem addNodeList_splitOn (list : Text) (nodes : List Text) (noNul : nul ∉ list) :
    addNodeList list nodes = .ok (nodes ++ list.splitOn ' ') := by
  rw [addNodeList, whileNotStop_splitOn (by decide) noNul, foldlM_push]
  rfl

/-- What a list is read as. -/
def readList (list : List Printed) : List Text :=
  if list.isEmpty then []
  else ([' '].intercalate (list.map Printed.text)).splitOn ' '

/-- A list is read back when no name in it has a space, and only then. -/
theorem readList_eq_iff (list : List Printed) :
    readList list = list.map Printed.text ↔ ∀ name ∈ list, ' ' ∉ name.text := by
  cases list with
  | nil => simp [readList]
  | cons first rest =>
      rw [readList, if_neg (by simp), splitOn_intercalate_iff (by simp),
        List.forall_mem_map]

/-- A line of `addList` adds the list to a field of the function. -/
theorem consumes_addList {tag : Char} {field : List Text}
    (put : List Text → FunctionTables) (list : List Printed)
    (unchanged : put field = tables)
    (reads : ∀ text rest, Clear newline text →
      parseFunctionLine (tag :: ' ' :: (text ++ [newline] ++ rest)) tables =
        addNodeList text field >>= fun nodes => .ok (put nodes, false, rest)) :
    Consumes (addList tag list) tables (put (field ++ readList list)) := by
  cases list with
  | nil =>
      have nothing : readList [] = [] := rfl
      rw [nothing, List.append_nil, unchanged]
      exact Consumes.nothing
  | cons first others =>
      have clear : Clear newline
          ([' '].intercalate ((first :: others).map Printed.text)) := by
        intro c inside
        rcases of_mem_intercalate inside with rfl | ⟨text, listed, held⟩
        · decide
        · obtain ⟨name, _, rfl⟩ := List.mem_map.mp listed
          exact name.clear_newline c held
      have lineIs : addList tag (first :: others) = tag :: ' ' ::
          ([' '].intercalate ((first :: others).map Printed.text) ++ [newline]) := by
        have separated := flatMap_separated ' ' first.text (others.map Printed.text)
        rw [← List.map_cons, List.flatMap_map] at separated
        rw [addList, if_neg (by simp), separated]
        rfl
      rw [lineIs]
      refine .line (List.cons_ne_nil _ _) fun rest => ?_
      rw [List.cons_append, List.cons_append, reads _ rest clear,
        addNodeList_splitOn _ _ (clear_iff.mp clear).1]
      rfl

/-- The line that opens a record. -/
theorem consumes_name (name : Printed) :
    Consumes ("\x7b ".toList ++ name.text ++ [newline]) tables
      { tables with current := some (allocFunction name.text) } := by
  refine .line (by simp) fun rest => ?_
  have taken := getStringBeforeSymbol_line name.clear_newline rest
  change parseFunctionLine ('\x7b' :: ' ' :: (name.text ++ [newline] ++ rest))
    tables = _
  unfold parseFunctionLine
  simp only [List.drop_succ_cons, List.drop_zero, taken]
  rfl

/-- The class and the method that an `N` line is read as. -/
def readIdentity (line : Text) : Text × Text :=
  (line.takeWhile (· != '#'), (line.dropWhile (· != '#')).drop 1)

theorem readIdentity_split {before : Text} (after : Text) (notBefore : '#' ∉ before) :
    readIdentity (before ++ '#' :: after) = (before, after) := by
  have others : ∀ c ∈ before, (c != '#') = true := by
    intro c listed
    rw [bne_iff_ne]
    rintro rfl
    exact notBefore listed
  rw [readIdentity, List.takeWhile_append_of_pos others,
    List.dropWhile_append_of_pos others]
  simp

/-- The identity is read back when the class has no `#` in it, and only then. -/
theorem readIdentity_eq_iff (className methodName : Text) :
    readIdentity (className ++ '#' :: methodName) = (className, methodName) ↔
      '#' ∉ className := by
  constructor
  · intro back listed
    have here : (className ++ '#' :: methodName).takeWhile (· != '#') = className :=
      congrArg Prod.fst back
    rw [← here] at listed
    simpa using List.mem_takeWhile_imp listed
  · exact readIdentity_split methodName

variable {f : ParsedFunction}

theorem consumes_constructor (className : Printed)
    (inside : tables.current = some f) :
    Consumes ("C ".toList ++ className.text ++ [newline]) tables
      { tables with ctor := tables.ctor.insertNew f.name className.text } := by
  refine .line (by simp) fun rest => ?_
  have taken := getStringBeforeSymbol_line className.clear_newline rest
  change parseFunctionLine ('C' :: ' ' :: (className.text ++ [newline] ++ rest))
    tables = _
  unfold parseFunctionLine
  simp only [FunctionTables.deref, inside, List.drop_succ_cons,
    List.drop_zero, taken, bind, Except.bind]
  split
  next present =>
    rw [OrdDict.insertNew_of_mem _ (dictIn_iff.mp present)]
    rfl
  next absent =>
    rw [dictAdd_eq_ok.mpr ⟨fun present => absent (dictIn_iff.mpr present), rfl⟩]
    rfl

theorem consumes_identity (className methodName : Printed)
    (inside : tables.current = some f) :
    Consumes ("N ".toList ++ (className.text ++ '#' :: methodName.text) ++
      [newline]) tables
      { tables with
        current := some { f with
          className := some
            (readIdentity (className.text ++ '#' :: methodName.text)).1
          methodName := some
            (readIdentity (className.text ++ '#' :: methodName.text)).2 } } := by
  obtain ⟨before, after, split, notBefore⟩ := List.eq_append_cons_of_mem
    (List.mem_append_right className.text
      (List.mem_cons_self : '#' ∈ '#' :: methodName.text))
  have clear : Clear newline (className.text ++ '#' :: methodName.text) := by
    intro c listed
    rcases List.mem_append.mp listed with inClass | later
    · exact className.clear_newline c inClass
    · rcases List.mem_cons.mp later with rfl | inMethod
      · decide
      · exact methodName.clear_newline c inMethod
  rw [split] at clear ⊢
  have read := readIdentity_split after notBefore
  refine .line (by simp) fun rest => ?_
  have takenClass := @getStringBeforeSymbol_symbol '#' before
    (after ++ [newline] ++ rest) (clear_iff.mpr ⟨fun never =>
      (clear_iff.mp clear).1 (List.mem_append_left _ never), notBefore⟩) (by decide)
  have takenMethod := getStringBeforeSymbol_line
    (fun c listed => clear c (List.mem_append_right _
      (List.mem_cons_of_mem _ listed))) rest
  have lineIs : "N ".toList ++ (before ++ '#' :: after) ++ [newline] ++ rest =
      'N' :: ' ' :: (before ++ '#' :: (after ++ [newline] ++ rest)) := by
    simp
  rw [lineIs]
  unfold parseFunctionLine
  simp only [FunctionTables.deref, inside, List.drop_succ_cons,
    List.drop_zero, takenClass, takenMethod, bind, Except.bind, read]
  rfl

theorem consumes_destructor (className : Printed)
    (inside : tables.current = some f) :
    Consumes ("D ".toList ++ className.text ++ [newline]) tables
      { tables with
        current := some { f with
          className := some className.text
          methodName := some ['~'] } } := by
  refine .line (by simp) fun rest => ?_
  have taken := getStringBeforeSymbol_line className.clear_newline rest
  change parseFunctionLine ('D' :: ' ' :: (className.text ++ [newline] ++ rest))
    tables = _
  unfold parseFunctionLine
  simp only [FunctionTables.deref, inside, List.drop_succ_cons,
    List.drop_zero, taken]
  rfl

theorem consumes_type (type : Printed) (inside : tables.current = some f) :
    Consumes ("Y ".toList ++ type.text ++ [newline]) tables
      { tables with current := some { f with type := some type.text } } := by
  refine .line (by simp) fun rest => ?_
  have taken := getStringBeforeSymbol_line type.clear_newline rest
  change parseFunctionLine ('Y' :: ' ' :: (type.text ++ [newline] ++ rest))
    tables = _
  unfold parseFunctionLine
  simp only [FunctionTables.deref, inside, List.drop_succ_cons,
    List.drop_zero, taken]
  rfl

/-- The lines of the three lists. -/
theorem consumes_lists (info : FuncInfo) (inside : tables.current = some f) :
    Consumes (addList 'R' info.returns ++ addList 'T' info.dtails ++
        addList 'I' info.itails) tables
      { tables with
        current := some { f with
          returns := f.returns ++ readList info.returns
          dtails := f.dtails ++ readList info.dtails
          itails := f.itails ++ readList info.itails } } := by
  obtain ⟨functions, ctor, current⟩ := tables
  cases inside
  refine Consumes.trans (Consumes.trans
    (consumes_addList (fun nodes =>
      ⟨functions, ctor, some { f with returns := nodes }⟩) info.returns rfl ?_)
    (consumes_addList (fun nodes =>
      ⟨functions, ctor, some { f with
        returns := f.returns ++ readList info.returns
        dtails := nodes }⟩) info.dtails rfl ?_))
    (consumes_addList (fun nodes =>
      ⟨functions, ctor, some { f with
        returns := f.returns ++ readList info.returns
        dtails := f.dtails ++ readList info.dtails
        itails := nodes }⟩) info.itails rfl ?_)
  all_goals
    intro text rest clear
    have taken := getStringBeforeSymbol_line clear rest
    unfold parseFunctionLine
    simp only [FunctionTables.deref, List.drop_succ_cons,
      List.drop_zero, taken]
    rfl

end Lines

section Functions

namespace FuncInfo

variable (info : FuncInfo)

/-- The function of a record. -/
def function : ParsedFunction where
  name := info.name.text
  className :=
    match info.kind with
    | .instanceMethod className _ _ => some className.text
    | .destructor className => some className.text
    | _ => none
  methodName :=
    match info.kind with
    | .instanceMethod _ methodName _ => some methodName.text
    | .destructor _ => some ['~']
    | _ => none
  type :=
    match info.kind with
    | .instanceMethod _ _ type => some type.text
    | .other type => some type.text
    | _ => none
  returns := info.returns.map Printed.text
  dtails := info.dtails.map Printed.text
  itails := info.itails.map Printed.text

/-- What a record is read as. -/
def readAs : ParsedFunction :=
  let identity := match info.kind with
    | .instanceMethod className methodName _ =>
        let identity := readIdentity (className.text ++ '#' :: methodName.text)
        (some identity.1, some identity.2)
    | _ => (info.function.className, info.function.methodName)
  { info.function with
    className := identity.1
    methodName := identity.2
    returns := readList info.returns
    dtails := readList info.dtails
    itails := readList info.itails }

/-- The constructors, with the one of a record. -/
def addCtor (ctor : OrdDict Text Text) : OrdDict Text Text :=
  match info.kind with
  | .virtualConstructor className => ctor.insertNew info.name.text className.text
  | _ => ctor

/-- The class of an instance method has no `#` in it, and a name of a list no space. -/
structure Readable : Prop where
  className : ∀ className methodName type,
    info.kind = .instanceMethod className methodName type → '#' ∉ className.text
  returns : ∀ name ∈ info.returns, ' ' ∉ name.text
  dtails : ∀ name ∈ info.dtails, ' ' ∉ name.text
  itails : ∀ name ∈ info.itails, ' ' ∉ name.text

/-- A record is read as its function when its names are readable, and only then. -/
theorem readAs_eq_iff : info.readAs = info.function ↔ info.Readable := by
  obtain ⟨name, kind, returns, dtails, itails⟩ := info
  have lists := readList_eq_iff returns
  have dlists := readList_eq_iff dtails
  have ilists := readList_eq_iff itails
  constructor
  · intro same
    rw [readAs, ParsedFunction.mk.injEq] at same
    obtain ⟨_, sameClass, sameMethod, _, sameReturns, sameDtails, sameItails⟩ := same
    refine ⟨?_, lists.mp sameReturns, dlists.mp sameDtails, ilists.mp sameItails⟩
    rintro className methodName type rfl
    apply (readIdentity_eq_iff className.text methodName.text).mp
    exact Prod.ext (Option.some.inj sameClass) (Option.some.inj sameMethod)
  · intro readable
    rw [readAs, ParsedFunction.mk.injEq]
    refine ⟨rfl, ?_, ?_, rfl, lists.mpr readable.returns, dlists.mpr readable.dtails,
      ilists.mpr readable.itails⟩
    · cases kind with
      | instanceMethod className methodName type =>
          have back := (readIdentity_eq_iff className.text methodName.text).mpr
            (readable.className className methodName type rfl)
          exact congrArg (fun identity => some identity.1) back
      | _ => rfl
    · cases kind with
      | instanceMethod className methodName type =>
          have back := (readIdentity_eq_iff className.text methodName.text).mpr
            (readable.className className methodName type rfl)
          exact congrArg (fun identity => some identity.2) back
      | _ => rfl

end FuncInfo

variable {tables : FunctionTables}

/-- The lines of a record, all but the last one. -/
theorem consumes_lines (info : FuncInfo) :
    Consumes info.lines tables
      { tables with
        ctor := info.addCtor tables.ctor
        current := some info.readAs } := by
  have opened := @consumes_name tables info.name
  have kinds : ∃ identified : ParsedFunction,
      Consumes info.kind.text
        { tables with current := some (allocFunction info.name.text) }
        { tables with
          ctor := info.addCtor tables.ctor
          current := some identified } ∧
      info.readAs = { identified with
        returns := identified.returns ++ readList info.returns
        dtails := identified.dtails ++ readList info.dtails
        itails := identified.itails ++ readList info.itails } := by
    obtain ⟨name, kind, returns, dtails, itails⟩ := info
    cases kind with
    | constructor => exact ⟨_, Consumes.nothing, rfl⟩
    | virtualConstructor className =>
        exact ⟨_, @consumes_constructor
          { tables with current := some (allocFunction name.text) }
          (allocFunction name.text) className rfl, rfl⟩
    | instanceMethod className methodName type =>
        exact ⟨_, (consumes_identity className methodName rfl).trans
          (consumes_type type rfl), rfl⟩
    | destructor className => exact ⟨_, consumes_destructor className rfl, rfl⟩
    | other type => exact ⟨_, consumes_type type rfl, rfl⟩
  obtain ⟨identified, identity, readIs⟩ := kinds
  rw [readIs]
  exact (opened.trans identity).trans (consumes_lists info rfl)

/-- A record is read as one function, and to its NUL. -/
theorem parseFunctionLines_record (info : FuncInfo) (rest : Text) :
    parseFunctionLines ((info.text ++ nul :: rest).length + 1)
        (info.text ++ nul :: rest) tables =
      .ok ({
        functions := tables.functions ++ [info.readAs]
        ctor := info.addCtor tables.ctor
        current := none }, rest) := by
  obtain ⟨rounds, short, runs⟩ := @consumes_lines tables info
  have textIs : info.text ++ nul :: rest = info.lines ++ '\x7d' :: nul :: rest := by
    rw [FuncInfo.text, List.append_assoc]
    rfl
  obtain ⟨fuel, enough⟩ : ∃ fuel,
      (info.lines ++ '\x7d' :: nul :: rest).length + 1 = fuel + 1 + rounds := by
    refine ⟨(info.lines ++ '\x7d' :: nul :: rest).length - rounds, ?_⟩
    rw [List.length_append]
    omega
  rw [textIs, enough, runs]
  rfl

/-- The loop of `parse_functions` reads all records. -/
theorem parseFunctionsLoop_records {infos : List FuncInfo} {fuel : Nat}
    (behind : Text) (tables : FunctionTables) (enough : infos.length < fuel) :
    ∃ current, parseFunctions.loop behind fuel
        (emitMCFIInfo (infos.map FuncInfo.text) ++ behind) tables =
      .ok (⟨tables.functions ++ infos.map FuncInfo.readAs,
        infos.foldl (fun ctor info => info.addCtor ctor) tables.ctor, current⟩,
        behind) := by
  induction infos generalizing fuel tables with
  | nil =>
      obtain ⟨fuel, rfl⟩ := Nat.exists_eq_succ_of_ne_zero (by omega : fuel ≠ 0)
      refine ⟨tables.current, ?_⟩
      change parseFunctions.loop behind (fuel + 1) behind tables = _
      rw [parseFunctions.loop, if_pos le_rfl, List.map_nil, List.append_nil]
      rfl
  | cons info rest inductionHypothesis =>
      obtain ⟨fuel, rfl⟩ := Nat.exists_eq_succ_of_ne_zero (by omega : fuel ≠ 0)
      obtain ⟨current, later⟩ := @inductionHypothesis fuel
        ⟨tables.functions ++ [info.readAs], info.addCtor tables.ctor, none⟩
        (by simpa using enough)
      refine ⟨current, ?_⟩
      have split := List.append_cons tables.functions info.readAs
        (rest.map FuncInfo.readAs)
      rw [List.map_cons, emitMCFIInfo_cons, parseFunctions.loop,
        if_neg (not_at_end _ _ _), parseFunctionLines_record, List.map_cons, split]
      exact later

/-- What is read of the functions of a module. -/
theorem parseFunctions_section (infos : List FuncInfo) (behind : Text) :
    parseFunctions (emitMCFIInfo (infos.map FuncInfo.text)) behind =
      .ok (infos.map FuncInfo.readAs,
        infos.foldl (fun ctor info => info.addCtor ctor) ∅, behind) := by
  have enough := length_le_emitMCFIInfo (infos.map FuncInfo.text)
  rw [List.length_map] at enough
  obtain ⟨current, loop⟩ := @parseFunctionsLoop_records infos
    ((emitMCFIInfo (infos.map FuncInfo.text)).length + 1) behind ⟨[], ∅, none⟩
    (by omega)
  rw [parseFunctions, loop]
  simp [bind, Except.bind, pure, Except.pure]

/-- The record of a function says that it constructs a class. -/
def FuncInfo.Constructs (info : FuncInfo) (name className : Text) : Prop :=
  info.name.text = name ∧ ∃ printed : Printed,
    info.kind = .virtualConstructor printed ∧ printed.text = className

theorem FuncInfo.find_addCtor (info : FuncInfo) (ctor : OrdDict Text Text)
    (name className : Text) :
    dictFind (info.addCtor ctor) name = some className ↔
      dictFind ctor name = some className ∨
        dictFind ctor name = none ∧ info.Constructs name className := by
  obtain ⟨own, kind, returns, dtails, itails⟩ := info
  cases kind with
  | virtualConstructor printed =>
      simp only [addCtor, dictFind, OrdDict.find_insertNew, Constructs]
      split
      next new =>
        obtain ⟨rfl, absent⟩ := new
        simp [OrdDict.find_eq_none.mpr absent, eq_comm]
      next old =>
        constructor
        · exact Or.inl
        · rintro (found | ⟨missing, rfl, _⟩)
          · exact found
          · exact absurd ⟨rfl, OrdDict.find_eq_none.mp missing⟩ old
  | _ => simp [addCtor, Constructs]

/-- The constructors of a section are those that a record says. -/
theorem find_foldl_addCtor (infos : List FuncInfo) (ctor : OrdDict Text Text)
    (name : Text) :
    (∀ className, dictFind (infos.foldl (fun ctor info => info.addCtor ctor) ctor)
        name = some className →
      dictFind ctor name = some className ∨
        ∃ info ∈ infos, info.Constructs name className) ∧
    (∀ className, (dictFind ctor name = some className ∨
        ∃ info ∈ infos, info.Constructs name className) →
      ∃ first, dictFind (infos.foldl (fun ctor info => info.addCtor ctor) ctor)
        name = some first) := by
  induction infos generalizing ctor with
  | nil =>
      refine ⟨fun className => Or.inl, fun className constructed => ?_⟩
      rcases constructed with found | ⟨_, never, _⟩
      · exact ⟨className, found⟩
      · cases never
  | cons info rest inductionHypothesis =>
      obtain ⟨sound, complete⟩ := inductionHypothesis (info.addCtor ctor)
      constructor
      · intro className found
        rcases sound className found with early | ⟨other, listed, constructs⟩
        · rcases (info.find_addCtor ctor name className).mp early with old |
            ⟨_, constructs⟩
          · exact Or.inl old
          · exact Or.inr ⟨info, List.mem_cons_self, constructs⟩
        · exact Or.inr ⟨other, List.mem_cons_of_mem _ listed, constructs⟩
      · rintro className (old | ⟨other, listed, constructs⟩)
        · exact complete className (Or.inl
            ((info.find_addCtor ctor name className).mpr (Or.inl old)))
        · rcases List.mem_cons.mp listed with rfl | later
          · cases held : dictFind ctor name with
            | none =>
                exact complete className (Or.inl
                  ((other.find_addCtor ctor name className).mpr
                    (Or.inr ⟨held, constructs⟩)))
            | some first =>
                exact complete first (Or.inl
                  ((other.find_addCtor ctor name first).mpr (Or.inl held)))
          · exact complete className (Or.inr ⟨other, later, constructs⟩)

end Functions

section IndirectCalls

/-- The attribute bits of a pointer to a method. -/
def methodPointerAttrs (isConst isVolatile : Bool) : UInt8 :=
  (if isConst then Qualifier.constant.bit else 0) |||
    if isVolatile then Qualifier.volatile.bit else 0

/-- The kind of an indirect call, as the runtime has it. -/
def IndirectCall.ity : IndirectCall → ParsedIcfType
  | virtualMethod className methodName =>
      .virtualMethodCall className.text methodName.text
  | virtualDestructor className => .virtualMethodCall className.text ['~']
  | methodPointer className isConst isVolatile type =>
      .pointerToMethodCall className.text (methodPointerAttrs isConst isVolatile)
        type.text
  | normal type => .normalCall type.text

/-- The indirect call of a record. -/
def IndirectCallInfo.icf (info : IndirectCallInfo) : ParsedIcf where
  id := info.id.text
  ity := info.call.ity

/-- The names in a kind of an indirect call. -/
def ParsedIcfType.names : ParsedIcfType → List Text
  | virtualMethodCall className methodName => [className, methodName]
  | pointerToMethodCall className _ type => [className, type]
  | normalCall type => [type]

/-- No name of an indirect call has a `#` in it. -/
def ParsedIcf.WithoutSharps (icf : ParsedIcf) : Prop :=
  ∀ name ∈ icf.id :: icf.ity.names, '#' ∉ name

variable {icf : ParsedIcf} {ity : ParsedIcfType} {cursor left : Text}

/-- The names of a kind that is read have no `#` in them. -/
theorem parseIcfType_names (read : parseIcfType cursor = .ok (ity, left)) :
    ∀ name ∈ ity.names, '#' ∉ name := by
  have noSharp : ∀ {text behind inner : Text} {stop : Bool},
      getStringBeforeSymbol '#' inner = .ok (text, stop, behind) → '#' ∉ text := by
    intro text behind inner stop taken
    obtain ⟨_, _, _, _, clear⟩ := getStringBeforeSymbol_ok taken
    exact (clear_iff.mp clear).2
  unfold parseIcfType at read
  split at read
  next => cases read
  next tag rest =>
    simp only at read
    split at read
    · simp only [bind_eq_ok] at read
      obtain ⟨⟨className, _, _⟩, first, ⟨methodName, _, _⟩, second, read⟩ := read
      cases read
      simp [ParsedIcfType.names, noSharp first, noSharp second]
    · simp only [bind_eq_ok] at read
      obtain ⟨⟨className, _, _⟩, first, read⟩ := read
      cases read
      simp [ParsedIcfType.names, noSharp first]
    · simp only [bind_eq_ok] at read
      obtain ⟨⟨className, _, _⟩, first, ⟨_, _, _⟩, _, ⟨type, _, _⟩, third, read⟩ :=
        read
      cases read
      simp [ParsedIcfType.names, noSharp first, noSharp third]
    · simp only [bind_eq_ok] at read
      obtain ⟨⟨type, _, _⟩, first, read⟩ := read
      cases read
      simp [ParsedIcfType.names, noSharp first]
    · cases read

/-- Whatever the section, the names of the indirect calls have no `#` in them. -/
theorem parseIcfsLoop_names {behind : Text} {fuel : Nat}
    {icfs result : List ParsedIcf}
    (clear : ∀ icf ∈ icfs, icf.WithoutSharps)
    (returned : parseIcfs.loop behind fuel cursor icfs = .ok (result, left)) :
    ∀ icf ∈ result, icf.WithoutSharps := by
  induction fuel generalizing cursor icfs with
  | zero => cases returned
  | succ fuel inductionHypothesis =>
      rw [parseIcfs.loop] at returned
      split at returned
      next =>
        cases returned
        exact clear
      next =>
        simp only [bind_eq_ok] at returned
        obtain ⟨⟨id, _, _⟩, taken, ⟨ity, _⟩, read, later⟩ := returned
        obtain ⟨_, _, _, _, idClear⟩ := getStringBeforeSymbol_ok taken
        refine inductionHypothesis (fun icf listed => ?_) later
        rcases List.mem_append.mp listed with old | new
        · exact clear icf old
        · rw [List.mem_singleton.mp new]
          intro name inIcf
          rcases List.mem_cons.mp inIcf with rfl | inType
          · exact (clear_iff.mp idClear).2
          · exact parseIcfType_names read name inType

/-- A printed text without `#`s, in front of one or of a NUL. -/
private theorem taken_printed (printed : Printed) (noSharp : '#' ∉ printed.text)
    (rest : Text) :
    getStringBeforeSymbol '#' (printed.text ++ '#' :: rest) =
        .ok (printed.text, false, rest) ∧
      getStringBeforeSymbol '#' (printed.text ++ nul :: rest) =
        .ok (printed.text, true, rest) :=
  ⟨getStringBeforeSymbol_symbol (printed.clear_iff.mpr noSharp) (by decide),
    getStringBeforeSymbol_nul (printed.clear_iff.mpr noSharp)⟩

/-- A kind whose names have no `#` is read back. -/
theorem parseIcfType_text (call : IndirectCall)
    (clear : ∀ name ∈ call.ity.names, '#' ∉ name) (rest : Text) :
    parseIcfType (call.text ++ nul :: rest) = .ok (call.ity, rest) := by
  cases call with
  | virtualMethod className methodName =>
      have textIs : (IndirectCall.virtualMethod className methodName).text ++
          nul :: rest = 'V' :: '#' ::
            (className.text ++ '#' :: (methodName.text ++ nul :: rest)) := by
        simp [IndirectCall.text]
      have classTaken := (taken_printed className (clear _ List.mem_cons_self)
        (methodName.text ++ nul :: rest)).1
      have methodTaken := (taken_printed methodName
        (clear _ (List.mem_cons_of_mem _ List.mem_cons_self)) rest).2
      rw [textIs]
      simp only [parseIcfType, List.drop_succ_cons, List.drop_zero, classTaken,
        methodTaken, bind, Except.bind]
      rfl
  | virtualDestructor className =>
      have classTaken := (taken_printed className (clear _ List.mem_cons_self)
        rest).2
      change parseIcfType ('D' :: '#' :: (className.text ++ nul :: rest)) = _
      simp only [parseIcfType, List.drop_succ_cons, List.drop_zero, classTaken]
      rfl
  | methodPointer className isConst isVolatile type =>
      have classTaken := (taken_printed className (clear _ List.mem_cons_self)
        (((if isConst then ['c'] else []) ++ if isVolatile then ['o'] else []) ++
          '#' :: (type.text ++ nul :: rest))).1
      have coTaken := @getStringBeforeSymbol_symbol '#'
        ((if isConst then ['c'] else []) ++ if isVolatile then ['o'] else [])
        (type.text ++ nul :: rest)
        (clear_iff.mpr (by cases isConst <;> cases isVolatile <;> decide))
        (by decide)
      have typeTaken := (taken_printed type
        (clear _ (List.mem_cons_of_mem _ List.mem_cons_self)) rest).2
      have textIs : (IndirectCall.methodPointer className isConst isVolatile
          type).text ++ nul :: rest = 'P' :: '#' :: (className.text ++ '#' ::
            (((if isConst then ['c'] else []) ++ if isVolatile then ['o'] else []) ++
              '#' :: (type.text ++ nul :: rest))) := by
        simp [IndirectCall.text]
      have attrsAre : pointerAttrs ((if isConst then ['c'] else []) ++
          if isVolatile then ['o'] else []) =
            methodPointerAttrs isConst isVolatile := by
        cases isConst <;> cases isVolatile <;> decide
      rw [textIs]
      simp only [parseIcfType, List.drop_succ_cons, List.drop_zero, classTaken,
        coTaken, typeTaken, bind, Except.bind, attrsAre]
      rfl
  | normal type =>
      have typeTaken := (taken_printed type (clear _ List.mem_cons_self) rest).2
      change parseIcfType ('N' :: '#' :: (type.text ++ nul :: rest)) = _
      simp only [parseIcfType, List.drop_succ_cons, List.drop_zero, typeTaken]
      rfl

/-- Records whose names have no `#` are read back. -/
theorem parseIcfsLoop_records {infos : List IndirectCallInfo} {fuel : Nat}
    (behind : Text) (icfs : List ParsedIcf)
    (clear : ∀ info ∈ infos, info.icf.WithoutSharps)
    (enough : infos.length < fuel) :
    parseIcfs.loop behind fuel
        (emitMCFIInfo (infos.map IndirectCallInfo.text) ++ behind) icfs =
      .ok (icfs ++ infos.map IndirectCallInfo.icf, behind) := by
  induction infos generalizing fuel icfs with
  | nil =>
      obtain ⟨fuel, rfl⟩ := Nat.exists_eq_succ_of_ne_zero (by omega : fuel ≠ 0)
      change parseIcfs.loop behind (fuel + 1) behind icfs = _
      rw [parseIcfs.loop, if_pos le_rfl, List.map_nil, List.append_nil]
      rfl
  | cons info rest inductionHypothesis =>
      obtain ⟨fuel, rfl⟩ := Nat.exists_eq_succ_of_ne_zero (by omega : fuel ≠ 0)
      have later := @inductionHypothesis fuel (icfs ++ [info.icf])
        (fun other listed => clear other (List.mem_cons_of_mem _ listed))
        (by simpa using enough)
      have names := clear info List.mem_cons_self
      have idTaken := (taken_printed info.id (names _ List.mem_cons_self)
        (info.call.text ++ nul ::
          (emitMCFIInfo (rest.map IndirectCallInfo.text) ++ behind))).1
      have read := parseIcfType_text info.call
        (fun name listed => names name (List.mem_cons_of_mem _ listed))
        (emitMCFIInfo (rest.map IndirectCallInfo.text) ++ behind)
      have split := List.append_cons icfs info.icf (rest.map IndirectCallInfo.icf)
      rw [List.map_cons, emitMCFIInfo_cons, parseIcfs.loop,
        if_neg (not_at_end _ _ _), IndirectCallInfo.text, List.append_assoc,
        List.cons_append, idTaken, List.map_cons, split]
      simp only [bind, Except.bind, read]
      exact later

/-- The indirect calls of a module are read back when no name has a `#`. -/
theorem parseIcfs_eq_iff (infos : List IndirectCallInfo) (behind : Text) :
    parseIcfs (emitMCFIInfo (infos.map IndirectCallInfo.text)) behind =
        .ok (infos.map IndirectCallInfo.icf, behind) ↔
      ∀ info ∈ infos, info.icf.WithoutSharps := by
  constructor
  · intro returned info listed
    have initial : ∀ icf ∈ ([] : List ParsedIcf), icf.WithoutSharps :=
      fun _ never => nomatch never
    exact parseIcfsLoop_names initial returned info.icf (List.mem_map_of_mem listed)
  · intro clear
    have enough := length_le_emitMCFIInfo (infos.map IndirectCallInfo.text)
    rw [List.length_map] at enough
    exact parseIcfsLoop_records behind [] clear (by omega)

end IndirectCalls

section RoundTrip

/-- Two records of one function say the same class, if any. -/
def CtorsAgree (infos : List FuncInfo) : Prop :=
  ∀ first ∈ infos, ∀ second ∈ infos, ∀ name a b,
    first.Constructs name a → second.Constructs name b → a = b

/-- The constructors are those of the records. -/
def CtorsSurvive (infos : List FuncInfo) (ctor : OrdDict Text Text) : Prop :=
  ∀ name className, dictFind ctor name = some className ↔
    ∃ info ∈ infos, info.Constructs name className

theorem ctorsSurvive_iff (infos : List FuncInfo) :
    CtorsSurvive infos (infos.foldl (fun ctor info => info.addCtor ctor) ∅) ↔
      CtorsAgree infos := by
  have all := find_foldl_addCtor infos ∅
  constructor
  · intro survive first firstListed second secondListed name a b firstHas secondHas
    have firstHeld := (survive name a).mpr ⟨first, firstListed, firstHas⟩
    have secondHeld := (survive name b).mpr ⟨second, secondListed, secondHas⟩
    rw [firstHeld] at secondHeld
    exact Option.some.inj secondHeld
  · intro agree name className
    constructor
    · intro held
      rcases (all name).1 className held with never | constructed
      · cases never
      · exact constructed
    · rintro ⟨info, listed, constructs⟩
      obtain ⟨first, held⟩ := (all name).2 className
        (Or.inr ⟨info, listed, constructs⟩)
      rcases (all name).1 first held with never | ⟨other, known, constructsFirst⟩
      · cases never
      · rw [held, agree other known info listed name first className constructsFirst
          constructs]

/--
For any functions and any indirect calls of a module: their sections are read as
the same records, in order and to the end, exactly when the class of no instance
method and no name of an indirect call has a `#`, no name in a list has a space, and
the records of a constructor agree.
-/
theorem function_metadata_survives
    (functions : List FuncInfo) (calls : List IndirectCallInfo) (behind : Text) :
    ((∃ ctor, parseFunctions (emitMCFIInfo (functions.map FuncInfo.text)) behind =
        .ok (functions.map FuncInfo.function, ctor, behind) ∧
        CtorsSurvive functions ctor) ∧
      parseIcfs (emitMCFIInfo (calls.map IndirectCallInfo.text)) behind =
        .ok (calls.map IndirectCallInfo.icf, behind)) ↔
    ((∀ info ∈ functions, info.Readable) ∧ CtorsAgree functions) ∧
      ∀ info ∈ calls, info.icf.WithoutSharps := by
  have sameFunctions : functions.map FuncInfo.readAs =
      functions.map FuncInfo.function ↔ ∀ info ∈ functions, info.Readable := by
    rw [List.map_inj_left]
    exact forall₂_congr fun info _ => info.readAs_eq_iff
  rw [parseIcfs_eq_iff, parseFunctions_section]
  refine and_congr_left' ?_
  rw [← sameFunctions, ← ctorsSurvive_iff]
  constructor
  · rintro ⟨ctor, same, survive⟩
    rw [Except.ok.injEq, Prod.mk.injEq, Prod.mk.injEq] at same
    obtain ⟨sameList, rfl, _⟩ := same
    exact ⟨sameList, survive⟩
  · rintro ⟨same, survive⟩
    exact ⟨_, by rw [same], survive⟩

/-- The call operator of a closure has a `#` in the name of its class. -/
theorem function_metadata_lost :
    ¬ ∀ (functions : List FuncInfo) (calls : List IndirectCallInfo) (behind : Text),
      (∃ ctor, parseFunctions (emitMCFIInfo (functions.map FuncInfo.text)) behind =
          .ok (functions.map FuncInfo.function, ctor, behind) ∧
          CtorsSurvive functions ctor) ∧
        parseIcfs (emitMCFIInfo (calls.map IndirectCallInfo.text)) behind =
          .ok (calls.map IndirectCallInfo.icf, behind) := by
  intro all
  let closure : FuncInfo :=
    { name := ⟨"_ZZ4mainENKUliE_clEi".toList, by decide⟩
      kind := .instanceMethod
        ⟨"main::\x7blambda(int)#1\x7d".toList, by decide⟩
        ⟨"operator()(int) const".toList, by decide⟩
        ⟨"i32!%class.anon*@i32@".toList, by decide⟩
      returns := []
      dtails := []
      itails := [] }
  obtain ⟨⟨ctor, returned, _⟩, _⟩ := all [closure] [] []
  rw [parseFunctions_section, Except.ok.injEq, Prod.mk.injEq, List.map_singleton,
    List.map_singleton, List.singleton_inj] at returned
  exact (closure.readAs_eq_iff.mp returned.1).className _ _ _ rfl (by decide)

end RoundTrip

end Mcfi
