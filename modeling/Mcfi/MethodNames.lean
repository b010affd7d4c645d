import Mcfi.Lib.Brackets
import Mcfi.Sections

namespace Mcfi

open Brackets

/-!
# Names of methods

The front end knows the record a method belongs to and cuts its name off the
demangled name of the method.  The back end has the symbol of a function only: it
demangles the symbol and finds the end of the class name again, in a scan backward
over the parameter list and the template arguments.  The two agree exactly on the
symbols whose text that scan reads the way it was written.
-/

/-- Where `substr(0, position - back)` of a text ends; `size_t` wraps below zero. -/
def prefixBefore (text : Text) (position back : Nat) : Text :=
  if position < back then text else text.take (position - back)

/-- `find_last_of`. -/
def findLastOf (symbol : Char) : Text → Option Nat
  | [] => none
  | head :: rest =>
      match findLastOf symbol rest with
      | some position => some (position + 1)
      | none => if head = symbol then some 0 else none

/-- `find` finds the words in a text. -/
def contains (words text : Text) : Bool :=
  text.tails.any words.isPrefixOf

/-- `isspace`. -/
def isspace (c : Char) : Bool :=
  c.toNat == 32 || (decide (9 ≤ c.toNat) && decide (c.toNat ≤ 13))

section Demangled

variable (demangle : Text → Option Text)

/-- The words in front of the name of a method that a thunk calls. -/
def virtualThunk : Text := "virtual thunk to ".toList

/-- The words in front of the name of a method that a thunk calls. -/
def nonVirtualThunk : Text := "non-virtual thunk to ".toList

/-- `CXXDemangledName`. -/
def cxxDemangledName (mangledName : Text) : Text :=
  match demangle mangledName with
  | none => []
  | some demangledName =>
      if contains nonVirtualThunk demangledName then
        demangledName.drop nonVirtualThunk.length
      else if contains virtualThunk demangledName then
        demangledName.drop virtualThunk.length
      else
        demangledName

/-- `getCanonicalRecordName`. -/
def getCanonicalRecordName (rttiName : Text) : Rt Text :=
  match demangle rttiName with
  | none => .error (.check "getCanonicalRecordName")
  -- the words "typeinfo name for "
  | some name => .ok (name.drop 18)

/-- `getCanonicalMethodName`. -/
def getCanonicalMethodName (mangledName : Text) : Rt Text :=
  match demangle mangledName with
  | none => .error (.check "getCanonicalMethodName")
  | some name => .ok name

end Demangled

section BackEnd

/-- `--i`, after which the character at `i` is read. -/
def stepBack : Text → Rt Text
  | _ :: next :: rest => .ok (next :: rest)
  | _ => .error (.pageFault "splitMethodName")

/-- The part of `splitMethodName` that bypasses the template types. -/
def bypassTemplate (cursor : Text) : Rt Text :=
  if cursor.head? = some '>' then do
    let inside ← stepBack cursor
    return close '<' '>' 1 inside
  else
    .ok cursor

/--
`splitMethodName`.  The cursor is the text up to the character at `i`, the last
character first.
-/
def splitMethodName (methodName : Text) : Rt Text := do
  let parameters ← stepBack (seek (· == ')') methodName.reverse)
  let blanks ← stepBack (close '(' ')' 1 parameters)
  let name ← bypassTemplate (seek (fun c => !isspace c) blanks)
  let i := (seek (· == ':') name).length - 1
  return prefixBefore methodName i 1 ++ '#' :: methodName.drop (i + 1)

/-- What is written about a method: the text behind `N ` or `V#`, `D ` or `D#`. -/
inductive MethodTag where
  | instanceMethod (classAndMethod : Text)
  | destructor (className : Text)
  deriving DecidableEq, Repr

/-- The line of `MCFIFuncInfo` about an instance method. -/
def mcfiFuncInfo (demangle : Text → Option Text) (functionName : Text) :
    Rt (Option MethodTag) :=
  let demangledName := cxxDemangledName demangle functionName
  if demangledName = [] then
    .ok none
  else
    match findLastOf '~' demangledName with
    | none => do
        let name ← splitMethodName demangledName
        return some (.instanceMethod name)
    | some tilde =>
        .ok (some (.destructor (prefixBefore demangledName tilde 2)))

end BackEnd

section FrontEnd

variable (demangle : Text → Option Text)

/-- `MethodName.substr(RecordName.size()+2)`. -/
def passRecordName (recordName methodName : Text) : Rt Text :=
  if recordName.length + 2 ≤ methodName.length then
    .ok (methodName.drop (recordName.length + 2))
  else
    .error (.check "substr")

/-- `EmitCXXMemberCallExpr`: the tag of a virtual call. -/
def virtualCallee (rttiName mangledName : Text) : Rt MethodTag := do
  let recordName ← getCanonicalRecordName demangle rttiName
  let methodName ← getCanonicalMethodName demangle mangledName
  let methodName ← passRecordName recordName methodName
  return .instanceMethod (recordName ++ '#' :: methodName)

/-- `EmitVirtualDestructorCall`: the tag of a call to a virtual destructor. -/
def virtualDestructorCallee (rttiName : Text) : Rt MethodTag := do
  let recordName ← getCanonicalRecordName demangle rttiName
  return .destructor recordName

/--
`genClassHierarchyInfo`: the record name and the name in the list of its methods.
-/
def hierarchyEntry (isDestructor : Bool) (rttiName mangledName : Text) :
    Rt (Text × Text) := do
  let recordName ← getCanonicalRecordName demangle rttiName
  if isDestructor then
    return (recordName, ['~'])
  else
    let methodName ← getCanonicalMethodName demangle mangledName
    let methodName ← passRecordName recordName methodName
    return (recordName, methodName)

/-- The class and the method of an entry, as the tags have them. -/
def MethodTag.ofEntry (entry : Text × Text) : MethodTag :=
  if entry.2 = ['~'] then .destructor entry.1
  else .instanceMethod (entry.1 ++ '#' :: entry.2)

end FrontEnd

section Searches

variable {symbol : Char} {text words : Text}

theorem findLastOf_append (before : Text) {after : Text}
    (clean : ∀ c ∈ after, c ≠ symbol) :
    findLastOf symbol (before ++ symbol :: after) = some before.length := by
  have behind : findLastOf symbol after = none := by
    induction after with
    | nil =>
        rfl
    | cons head rest inductionHypothesis =>
        rw [findLastOf, inductionHypothesis fun c listed =>
          clean c (List.mem_cons_of_mem _ listed)]
        exact if_neg (clean head List.mem_cons_self)
  induction before with
  | nil =>
      rw [List.nil_append, findLastOf, behind]
      exact if_pos rfl
  | cons head rest inductionHypothesis =>
      rw [List.cons_append, findLastOf, inductionHypothesis]
      rfl

/-- A text without the symbol, or split at the last one. -/
theorem clean_or_split (symbol : Char) (text : Text) :
    (∀ c ∈ text, c ≠ symbol) ∨
      ∃ before after, text = before ++ symbol :: after ∧ ∀ c ∈ after, c ≠ symbol := by
  induction text with
  | nil =>
      exact .inl fun _ never => nomatch never
  | cons head rest inductionHypothesis =>
      rcases inductionHypothesis with clean | ⟨before, after, rfl, clean⟩
      · by_cases isSymbol : head = symbol
        · subst isSymbol
          exact .inr ⟨[], rest, rfl, clean⟩
        · exact .inl (List.forall_mem_cons.mpr ⟨isSymbol, clean⟩)
      · exact .inr ⟨head :: before, after, rfl, clean⟩

theorem findLastOf_eq_none :
    findLastOf symbol text = none ↔ ∀ c ∈ text, c ≠ symbol := by
  induction text with
  | nil =>
      exact ⟨(fun _ _ never => nomatch never), fun _ => rfl⟩
  | cons head rest inductionHypothesis =>
      rw [findLastOf, List.forall_mem_cons, ← inductionHypothesis]
      cases findLastOf symbol rest <;> simp

theorem contains_iff : contains words text = true ↔ words <:+: text := by
  rw [contains, List.any_eq_true, List.infix_iff_prefix_suffix]
  constructor
  · rintro ⟨tail, listed, isPrefix⟩
    exact ⟨tail, List.isPrefixOf_iff_prefix.mp isPrefix, (List.mem_tails _ _).mp listed⟩
  · rintro ⟨tail, isPrefix, isSuffix⟩
    exact ⟨tail, (List.mem_tails _ _).mpr isSuffix, List.isPrefixOf_iff_prefix.mpr isPrefix⟩

end Searches

section Splitting

/-- The pieces of the text of a method that the backward scan looks for. -/
structure MethodParts where
  base : Text
  arguments : Text
  blanks : Text
  parameters : Text
  qualifiers : Text

/-- `base<arguments> (parameters) qualifiers`. -/
def MethodParts.text (parts : MethodParts) : Text :=
  parts.base ++ (parts.arguments ++ (parts.blanks ++
    '(' :: (parts.parameters ++ ')' :: parts.qualifiers)))

/-- Read from its end, a text closes the brackets that it opens. -/
def Balanced (opening closing : Char) (text : Text) : Prop :=
  Nested opening closing 0 text.reverse

/-- How the template arguments and what is in front of them are read. -/
structure NameSplit (base arguments : Text) : Prop where
  arguments :
    (arguments = [] ∧
      ∀ c, base.getLast? = some c → c ≠ '>' ∧ isspace c = false) ∨
    ∃ inside, arguments = '<' :: (inside ++ ['>']) ∧ Balanced '<' '>' inside
  base : ∀ c ∈ base, c ≠ ':'

/--
The brackets of a method's text are those of its parameter list and of its template
arguments, and no colon is in front of them.
-/
structure MethodParts.WellNested (parts : MethodParts) : Prop where
  qualifiers : ∀ c ∈ parts.qualifiers, c ≠ ')'
  parameters : Balanced '(' ')' parts.parameters
  blanks : ∀ c ∈ parts.blanks, isspace c = true
  name : NameSplit parts.base parts.arguments

/-- The scan can read the text of the method. -/
def Scannable (method : Text) : Prop :=
  ∃ parts : MethodParts, parts.text = method ∧ parts.WellNested

theorem stepBack_eq_ok {cursor next : Text} :
    stepBack cursor = .ok next ↔ next ≠ [] ∧ ∃ head, cursor = head :: next := by
  constructor
  · intro returned
    cases cursor with
    | nil => cases returned
    | cons head rest =>
        cases rest with
        | nil => cases returned
        | cons second others =>
            cases returned
            exact ⟨List.cons_ne_nil _ _, head, rfl⟩
  · rintro ⟨nonempty, head, rfl⟩
    cases next with
    | nil => exact absurd rfl nonempty
    | cons second others => rfl

/-- A scan that a step back follows stopped at a character that stops it. -/
theorem stepBack_seek {stop : Char → Bool} {cursor next : Text}
    (returned : stepBack (seek stop cursor) = .ok next) :
    next ≠ [] ∧ ∃ skipped head, cursor = skipped ++ head :: next ∧
      (∀ c ∈ skipped, stop c = false) ∧ stop head = true := by
  obtain ⟨nonempty, head, found⟩ := stepBack_eq_ok.mp returned
  refine ⟨nonempty, ?_⟩
  cases cursor with
  | nil => cases found
  | cons first others =>
      obtain ⟨skipped, head', rest, split, clean, ended, found'⟩ :=
        exists_seek first others
      rw [found] at found'
      cases found'
      exact ⟨skipped, head, split, clean, ended.resolve_right nonempty⟩

/-- A scan over brackets that a step back follows stopped at the one it looks for. -/
theorem stepBack_close {opening closing : Char} {cursor next : Text}
    (distinct : opening ≠ closing)
    (returned : stepBack (close opening closing 1 cursor) = .ok next) :
    next ≠ [] ∧ ∃ inside, cursor = inside ++ opening :: next ∧
      Nested opening closing 0 inside := by
  obtain ⟨nonempty, head, found⟩ := stepBack_eq_ok.mp returned
  refine ⟨nonempty, ?_⟩
  cases cursor with
  | nil => cases found
  | cons first others =>
      obtain ⟨inside, head', rest, split, ended, found'⟩ :=
        exists_close distinct 0 first others
      rw [found] at found'
      cases found'
      obtain ⟨rfl, nested⟩ := ended.resolve_right nonempty
      exact ⟨inside, split, nested⟩

theorem template_distinct : '<' ≠ '>' := by
  decide

/--
What is read behind a colon that is not the first character of the name.
-/
theorem bypassTemplate_cases {last : Char} {rest after skipped before : Text}
    (returned : bypassTemplate (last :: rest) = .ok after)
    (notBlank : isspace last = false ∨ rest = [])
    (split : after = skipped ++ ':' :: before) (more : before ≠ [])
    (clean : ∀ c ∈ skipped, c ≠ ':') :
    ∃ base arguments, NameSplit base arguments ∧
      last :: rest = arguments.reverse ++ (base.reverse ++ ':' :: before) := by
  rw [bypassTemplate] at returned
  by_cases template : (last :: rest).head? = some '>'
  · rw [if_pos template] at returned
    obtain ⟨next, stepped, closed⟩ := bind_eq_ok.mp returned
    obtain ⟨nonempty, head, isHead⟩ := stepBack_eq_ok.mp stepped
    cases isHead
    cases template
    cases closed
    obtain ⟨first, others, rfl⟩ := List.exists_cons_of_ne_nil nonempty
    obtain ⟨inside, opened, behind, nextSplit, ended, found⟩ :=
      exists_close template_distinct 0 first others
    rw [found] at split
    -- the colon is not the last character of the cursor
    have notLast : behind ≠ [] := by
      rintro rfl
      cases skipped with
      | nil =>
          cases split
          exact more rfl
      | cons item others =>
          have lengths := congrArg List.length split
          simp at lengths
    obtain ⟨rfl, nested⟩ := ended.resolve_right notLast
    cases skipped with
    | nil => cases split
    | cons item base =>
        cases split
        refine ⟨base.reverse, '<' :: (inside.reverse ++ ['>']),
          ⟨.inr ⟨inside.reverse, rfl, ?_⟩, fun c listed => ?_⟩, ?_⟩
        · rw [Balanced, List.reverse_reverse]
          exact nested
        · exact clean c (List.mem_cons_of_mem _ (List.mem_reverse.mp listed))
        · rw [nextSplit]
          simp
  · rw [if_neg template] at returned
    cases returned
    refine ⟨skipped.reverse, [], ⟨.inl ⟨rfl, fun c isLast => ?_⟩, fun c listed => ?_⟩, ?_⟩
    · rw [List.getLast?_reverse] at isLast
      cases skipped with
      | nil => cases isLast
      | cons item others =>
          cases isLast
          cases split
          refine ⟨fun isTemplate => template (congrArg some isTemplate),
            notBlank.resolve_right ?_⟩
          exact List.append_ne_nil_of_right_ne_nil _ (List.cons_ne_nil _ _)
    · exact clean c (List.mem_reverse.mp listed)
    · rw [List.reverse_reverse]
      exact split

/-- The cursor does not go past the first character. -/
theorem bypassTemplate_suffix {cursor after : Text} (nonempty : cursor ≠ [])
    (returned : bypassTemplate cursor = .ok after) :
    after ≠ [] ∧ ∃ passed, cursor = passed ++ after := by
  rw [bypassTemplate] at returned
  by_cases template : cursor.head? = some '>'
  · rw [if_pos template] at returned
    obtain ⟨next, stepped, closed⟩ := bind_eq_ok.mp returned
    obtain ⟨nextNonempty, head, rfl⟩ := stepBack_eq_ok.mp stepped
    cases closed
    cases next with
    | nil => exact absurd rfl nextNonempty
    | cons first others =>
        obtain ⟨inside, opened, rest, nextSplit, _, found⟩ :=
          exists_close template_distinct 0 first others
        rw [found, nextSplit]
        exact ⟨List.cons_ne_nil _ _, head :: inside, rfl⟩
  · rw [if_neg template] at returned
    cases returned
    exact ⟨nonempty, [], rfl⟩

/-- Where `splitMethodName` splits a name. -/
theorem splitMethodName_cases {name result : Text}
    (returned : splitMethodName name = .ok result) :
    ∃ before head method, name = before ++ head :: method ∧
      result = prefixBefore name before.length 1 ++ '#' :: method ∧
      (before ≠ [] → head = ':' ∧ Scannable method) := by
  rw [splitMethodName] at returned
  obtain ⟨behindParameters, atClosing, returned⟩ := bind_eq_ok.mp returned
  obtain ⟨behindBlanks, atOpening, returned⟩ := bind_eq_ok.mp returned
  obtain ⟨atName, bypassed, returned⟩ := bind_eq_ok.mp returned
  cases returned
  obtain ⟨_, qualifiers, closing, nameSplit, noClosing, isClosing⟩ :=
    stepBack_seek atClosing
  obtain rfl : closing = ')' := by simpa using isClosing
  obtain ⟨blanksNonempty, parameters, parametersSplit, nestedParameters⟩ :=
    stepBack_close (by decide) atOpening
  obtain ⟨first, others, rfl⟩ := List.exists_cons_of_ne_nil blanksNonempty
  obtain ⟨blanks, last, rest, blanksSplit, allBlank, notBlank, atLast⟩ :=
    @exists_seek _ (fun c => !isspace c) first others
  rw [atLast] at bypassed
  obtain ⟨nameNonempty, passed, passedSplit⟩ :=
    bypassTemplate_suffix (List.cons_ne_nil _ _) bypassed
  obtain ⟨nameFirst, nameOthers, rfl⟩ := List.exists_cons_of_ne_nil nameNonempty
  obtain ⟨skipped, colon, before, colonSplit, noColon, isColon, atColon⟩ :=
    @exists_seek _ (fun c => c == ':') nameFirst nameOthers
  have reversed : name.reverse =
      (qualifiers ++ ')' :: (parameters ++ '(' :: (blanks ++ (passed ++ skipped)))) ++
        colon :: before := by
    rw [nameSplit, parametersSplit, blanksSplit, passedSplit, colonSplit]
    simp
  have nameIs : name = before.reverse ++ colon ::
      (qualifiers ++ ')' :: (parameters ++
        '(' :: (blanks ++ (passed ++ skipped)))).reverse := by
    rw [← List.reverse_reverse name, reversed]
    simp
  refine ⟨before.reverse, colon, _, nameIs, ?_, fun nonempty => ?_⟩
  · rw [atColon, List.length_cons, Nat.add_sub_cancel, List.length_reverse]
    have upTo : name = (before.reverse ++ [colon]) ++
        (qualifiers ++ ')' :: (parameters ++
          '(' :: (blanks ++ (passed ++ skipped)))).reverse := by
      rw [List.append_assoc]
      exact nameIs
    rw [upTo, List.drop_left' (by simp)]
  · have more : before ≠ [] := fun empty => nonempty (by rw [empty]; rfl)
    have colonIs : colon = ':' := by simpa using isColon.resolve_right more
    subst colonIs
    refine ⟨rfl, ?_⟩
    obtain ⟨base, arguments, named, lastSplit⟩ :=
      bypassTemplate_cases bypassed (by simpa using notBlank) colonSplit more
        fun c listed => by simpa using noColon c listed
    have read : passed ++ skipped = arguments.reverse ++ base.reverse := by
      rw [passedSplit, colonSplit, ← List.append_assoc, ← List.append_assoc]
        at lastSplit
      exact List.append_cancel_right lastSplit
    refine ⟨⟨base, arguments, blanks.reverse, parameters.reverse,
      qualifiers.reverse⟩, by rw [read]; simp [MethodParts.text], ?_⟩
    exact {
      qualifiers := fun c listed => by
        simpa using noClosing c (List.mem_reverse.mp listed)
      parameters := by
        rw [Balanced, List.reverse_reverse]
        exact nestedParameters
      blanks := fun c listed => by
        simpa using allBlank c (List.mem_reverse.mp listed)
      name := named
    }

private theorem stepBack_cons {next : Text} {head : Char}
    (nonempty : next ≠ []) : stepBack (head :: next) = .ok next :=
  stepBack_eq_ok.mpr ⟨nonempty, head, rfl⟩

/-- The last character of a name that has no template arguments. -/
private theorem last_of_base {base : Text} (before : Text)
    (lastOf : ∀ c, base.getLast? = some c → c ≠ '>' ∧ isspace c = false) :
    ∃ last rest, base.reverse ++ ':' :: before = last :: rest ∧
      last ≠ '>' ∧ isspace last = false := by
  cases reversed : base.reverse with
  | nil =>
      exact ⟨':', before, rfl, by decide, by decide⟩
  | cons last others =>
      refine ⟨last, others ++ ':' :: before, rfl, lastOf last ?_⟩
      rw [← List.head?_reverse, reversed]
      rfl

/-- A blank is not the last character of a name with its template arguments. -/
theorem NameSplit.last {base arguments : Text}
    (named : NameSplit base arguments) (before : Text) :
    ∃ last rest, arguments.reverse ++ (base.reverse ++ ':' :: before) = last :: rest ∧
      isspace last = false := by
  rcases named.arguments with ⟨rfl, lastOf⟩ | ⟨inside, rfl, _⟩
  · obtain ⟨last, rest, split, _, notBlank⟩ := last_of_base before lastOf
    exact ⟨last, rest, split, notBlank⟩
  · refine ⟨'>', inside.reverse ++ '<' :: (base.reverse ++ ':' :: before), ?_, by decide⟩
    simp

/-- The scan comes to the colon in front of a name with its template arguments. -/
theorem bypassTemplate_append {base arguments : Text}
    (named : NameSplit base arguments) (before : Text) :
    ∃ after,
      bypassTemplate (arguments.reverse ++ (base.reverse ++ ':' :: before)) = .ok after ∧
        seek (fun c => c == ':') after = ':' :: before := by
  have atColon : ∀ passed : Text, (∀ c ∈ passed, c ≠ ':') →
      seek (fun c => c == ':') (passed ++ ':' :: before) = ':' :: before :=
    fun _ clean =>
      seek_append (fun c listed => by simpa using clean c listed) (.inl rfl)
  have cleanBase : ∀ c ∈ base.reverse, c ≠ ':' := fun c listed =>
    named.base c (List.mem_reverse.mp listed)
  rcases named.arguments with ⟨rfl, lastOf⟩ | ⟨inside, rfl, balanced⟩
  · refine ⟨base.reverse ++ ':' :: before, ?_, atColon _ cleanBase⟩
    obtain ⟨last, rest, split, noTemplate, _⟩ := last_of_base before lastOf
    rw [List.reverse_nil, List.nil_append, split, bypassTemplate]
    exact if_neg fun template => noTemplate (Option.some.inj template)
  · refine ⟨'<' :: base.reverse ++ ':' :: before, ?_,
      atColon _ (List.forall_mem_cons.mpr ⟨by decide, cleanBase⟩)⟩
    have reversed : ('<' :: (inside ++ ['>'])).reverse ++
        (base.reverse ++ ':' :: before) =
          '>' :: (inside.reverse ++ '<' :: (base.reverse ++ ':' :: before)) := by
      simp
    rw [reversed, bypassTemplate, List.head?_cons, if_pos rfl,
      stepBack_cons (List.append_ne_nil_of_right_ne_nil _ (List.cons_ne_nil _ _))]
    exact congrArg Except.ok (close_append template_distinct balanced)

/-- `splitMethodName` splits a text that the scan can read where it was joined. -/
theorem splitMethodName_append {record : Text} {parts : MethodParts}
    (wellNested : parts.WellNested) :
    splitMethodName (record ++ ':' :: ':' :: parts.text) =
      .ok (record ++ '#' :: parts.text) := by
  have reversed : (record ++ ':' :: ':' :: parts.text).reverse =
      parts.qualifiers.reverse ++ ')' :: (parts.parameters.reverse ++
        '(' :: (parts.blanks.reverse ++ (parts.arguments.reverse ++
          (parts.base.reverse ++ ':' :: ':' :: record.reverse)))) := by
    simp [MethodParts.text]
  let before := ':' :: record.reverse
  let name := parts.arguments.reverse ++ (parts.base.reverse ++ ':' :: before)
  let blanks := parts.blanks.reverse ++ name
  let parameters := parts.parameters.reverse ++ '(' :: blanks
  have atClosing :
      seek (fun c => c == ')') (parts.qualifiers.reverse ++ ')' :: parameters) =
        ')' :: parameters :=
    seek_append (fun c listed => by
      simpa using wellNested.qualifiers c (List.mem_reverse.mp listed)) (.inl rfl)
  have atOpening : close '(' ')' 1 parameters = '(' :: blanks :=
    close_append (by decide) wellNested.parameters
  obtain ⟨last, rest, lastIs, notBlank⟩ := wellNested.name.last before
  have atName : seek (fun c => !isspace c) blanks = name := by
    rw [show name = last :: rest from lastIs,
      show blanks = parts.blanks.reverse ++ last :: rest from
        congrArg (parts.blanks.reverse ++ ·) lastIs]
    exact seek_append (fun c listed => by
      simpa using wellNested.blanks c (List.mem_reverse.mp listed))
      (.inl (by simpa using notBlank))
  obtain ⟨after, bypassed, atColon⟩ := bypassTemplate_append wellNested.name before
  have length : (seek (fun c => c == ':') after).length - 1 = record.length + 1 := by
    rw [atColon]
    simp [before]
  rw [splitMethodName]
  refine bind_eq_ok.mpr ⟨parameters, ?_, bind_eq_ok.mpr ⟨blanks, ?_,
    bind_eq_ok.mpr ⟨after, ?_, ?_⟩⟩⟩
  · rw [reversed]
    exact (congrArg stepBack atClosing).trans (stepBack_cons
      (List.append_ne_nil_of_right_ne_nil _ (List.cons_ne_nil _ _)))
  · refine (congrArg stepBack atOpening).trans (stepBack_cons ?_)
    exact List.append_ne_nil_of_right_ne_nil _
      (ne_of_eq_of_ne lastIs (List.cons_ne_nil _ _))
  · rw [atName]
    exact bypassed
  · have upTo : record ++ ':' :: ':' :: parts.text =
        (record ++ [':', ':']) ++ parts.text := by
      simp
    have before : prefixBefore (record ++ ':' :: ':' :: parts.text)
        (record.length + 1) 1 = record := by
      rw [prefixBefore, if_neg (by omega), Nat.add_sub_cancel, List.take_left' rfl]
    have behind : (record ++ ':' :: ':' :: parts.text).drop (record.length + 1 + 1) =
        parts.text := by
      rw [upTo, List.drop_left' (by simp)]
    simp only [length, before, behind]
    rfl

/-- A name has one colon that a `#` may stand for. -/
private theorem joined_unique {before record method other : Text}
    (same : before ++ ':' :: method = record ++ ':' :: ':' :: other)
    (joined : before.dropLast ++ '#' :: method = record ++ '#' :: other)
    (nonempty : before ≠ []) : method = other := by
  obtain ⟨start, last, rfl⟩ : ∃ start last, before = start ++ [last] :=
    ⟨_, _, (List.dropLast_concat_getLast nonempty).symm⟩
  rw [List.dropLast_concat] at joined
  rw [List.append_assoc, List.singleton_append] at same
  rcases List.append_eq_append_iff.mp joined with
    ⟨between, rfl, rest⟩ | ⟨between, rfl, rest⟩
  · cases between with
    | nil =>
        cases rest
        rfl
    | cons item others =>
        -- the name has a `#` where it has a colon
        cases rest
        rw [List.append_assoc, List.append_cancel_left_eq] at same
        have tails := (List.cons.inj same).right
        have behind : (':' :: others) ++ '#' :: other =
            (others ++ [':']) ++ ':' :: other := by
          rw [List.append_assoc]
          exact tails
        have hash := List.append_inj_right behind (by simp)
        cases hash
  · cases between with
    | nil =>
        cases rest
        rfl
    | cons item others =>
        cases rest
        rw [List.append_assoc, List.append_cancel_left_eq] at same
        cases same

/-- `splitMethodName` splits a name where it was joined exactly when it can be read. -/
theorem splitMethodName_eq_iff {record method : Text} :
    splitMethodName (record ++ ':' :: ':' :: method) =
      .ok (record ++ '#' :: method) ↔ Scannable method := by
  constructor
  · intro returned
    obtain ⟨before, colon, other, split, joined, read⟩ :=
      splitMethodName_cases returned
    have nonempty : before ≠ [] := by
      rintro rfl
      have lengths := congrArg List.length joined
      simp [prefixBefore] at lengths
      omega
    obtain ⟨rfl, scannable⟩ := read nonempty
    have cut : prefixBefore (record ++ ':' :: ':' :: method) before.length 1 =
        before.dropLast := by
      have positive := List.length_pos_of_ne_nil nonempty
      rw [prefixBefore, if_neg (by omega), split,
        List.take_append_of_le_length (Nat.sub_le _ _), ← List.dropLast_eq_take]
    rw [cut] at joined
    rw [← joined_unique split.symm joined.symm nonempty]
    exact scannable
  · rintro ⟨parts, rfl, wellNested⟩
    exact splitMethodName_append wellNested

end Splitting

section Thunks

/-- The kinds of symbols that stand for a method. -/
inductive Thunk where
  | method
  | virtual
  | nonVirtual
  | covariant
  deriving DecidableEq, Repr

/-- The words that the demangler puts in front of the name. -/
def Thunk.words : Thunk → Text
  | method => []
  | virtual => virtualThunk
  | nonVirtual => nonVirtualThunk
  | covariant => "covariant return thunk to ".toList

/-- A text in front of a name does not have the words when no end of it starts them. -/
private theorem infix_behind {words front name : Text}
    (apart : front.tails.all (fun tail => tail.isEmpty ||
      !tail.isPrefixOf words && !words.isPrefixOf tail) = true)
    (found : words <:+: front ++ name) : words <:+: name := by
  obtain ⟨before, behind, split⟩ := found
  rw [List.append_assoc] at split
  rcases List.append_eq_append_iff.mp split with
    ⟨between, rfl, rest⟩ | ⟨between, rfl, rest⟩
  · by_cases empty : between = []
    · subst empty
      exact ⟨[], behind, rest⟩
    · have noOverlap := List.all_eq_true.mp apart between
        ((List.mem_tails _ _).mpr ⟨before, rfl⟩)
      rw [Bool.or_eq_true, Bool.and_eq_true, Bool.not_eq_true', Bool.not_eq_true',
        List.isEmpty_iff] at noOverlap
      obtain ⟨noStart, noWords⟩ := noOverlap.resolve_left empty
      rcases List.append_eq_append_iff.mp rest with
        ⟨more, isBetween, _⟩ | ⟨more, isWords, _⟩
      · rw [List.isPrefixOf_iff_prefix.mpr ⟨more, isBetween.symm⟩] at noWords
        cases noWords
      · rw [List.isPrefixOf_iff_prefix.mpr ⟨more, isWords.symm⟩] at noStart
        cases noStart
  · exact ⟨between, behind, by rw [rest, List.append_assoc]⟩

private theorem contains_nonVirtual {text : Text}
    (clean : ¬ virtualThunk <:+: text) : contains nonVirtualThunk text = false := by
  refine Bool.eq_false_iff.mpr fun found => clean ?_
  exact List.IsInfix.trans ⟨"non-".toList, [], by decide⟩ (contains_iff.mp found)

private theorem contains_virtual {text : Text}
    (clean : ¬ virtualThunk <:+: text) : contains virtualThunk text = false :=
  Bool.eq_false_iff.mpr fun found => clean (contains_iff.mp found)

/-- `CXXDemangledName` drops the words of every thunk but a covariant one. -/
theorem cxxDemangledName_thunk {demangle : Text → Option Text}
    {linkageName name : Text} {thunk : Thunk}
    (demangled : demangle linkageName = some (thunk.words ++ name))
    (clean : ¬ virtualThunk <:+: name) :
    cxxDemangledName demangle linkageName =
      if thunk = .covariant then thunk.words ++ name else name := by
  rw [cxxDemangledName, demangled]
  change (if contains nonVirtualThunk (thunk.words ++ name) = true then _
    else if contains virtualThunk (thunk.words ++ name) = true then _ else _) = _
  cases thunk with
  | method =>
      rw [show Thunk.words .method ++ name = name from rfl,
        contains_nonVirtual clean, contains_virtual clean]
      exact (if_neg (by simp)).symm
  | virtual =>
      have notNonVirtual :
          contains nonVirtualThunk (Thunk.virtual.words ++ name) = false := by
        refine Bool.eq_false_iff.mpr fun found => clean ?_
        exact List.IsInfix.trans ⟨"non-".toList, [], by decide⟩
          (infix_behind (by decide) (contains_iff.mp found))
      have isVirtual : contains virtualThunk (Thunk.virtual.words ++ name) = true :=
        contains_iff.mpr (List.prefix_append _ _).isInfix
      rw [notNonVirtual, isVirtual]
      exact List.drop_left
  | nonVirtual =>
      have isNonVirtual :
          contains nonVirtualThunk (Thunk.nonVirtual.words ++ name) = true :=
        contains_iff.mpr (List.prefix_append _ _).isInfix
      rw [isNonVirtual]
      exact List.drop_left
  | covariant =>
      have stillClean : ¬ virtualThunk <:+: Thunk.covariant.words ++ name :=
        fun found => clean (infix_behind (by decide) found)
      rw [contains_nonVirtual stillClean, contains_virtual stillClean]
      rfl

end Thunks

section Symbols

/-- An instance method or a virtual destructor, as the text behind its record. -/
inductive Member where
  | method (text : Text)
  -- the text behind the `~`
  | destructor (text : Text)

/-- The text behind the record and its colons. -/
def Member.text : Member → Text
  | method text => text
  | destructor text => '~' :: text

/--
A function that is a method or a thunk to one: the names that the front end and the
back end demangle.
-/
structure MethodSymbol (demangle : Text → Option Text) where
  record : Text
  member : Member
  thunk : Thunk
  rttiName : Text
  mangledName : Text
  linkageName : Text
  demangledRecord :
    demangle rttiName = some ("typeinfo name for ".toList ++ record)
  demangledMethod :
    demangle mangledName = some (record ++ ':' :: ':' :: member.text)
  demangledLinkage :
    demangle linkageName =
      some (thunk.words ++ (record ++ ':' :: ':' :: member.text))
  -- no C++ name has these words in it
  noThunkWords : ¬ virtualThunk <:+: record ++ ':' :: ':' :: member.text

variable {demangle : Text → Option Text}

/-- What the front end writes at a virtual call of the method. -/
def MethodSymbol.callee (symbol : MethodSymbol demangle) : Rt MethodTag :=
  match symbol.member with
  | .method _ => virtualCallee demangle symbol.rttiName symbol.mangledName
  | .destructor _ => virtualDestructorCallee demangle symbol.rttiName

/-- What the front end writes about the method in the record of its class. -/
def MethodSymbol.hierarchyEntry (symbol : MethodSymbol demangle) :
    Rt (Text × Text) :=
  match symbol.member with
  | .method _ => Mcfi.hierarchyEntry demangle false symbol.rttiName symbol.mangledName
  | .destructor _ => Mcfi.hierarchyEntry demangle true symbol.rttiName symbol.mangledName

/-- The class and the method that the front end knows. -/
def MethodSymbol.tag (symbol : MethodSymbol demangle) : MethodTag :=
  match symbol.member with
  | .method text => .instanceMethod (symbol.record ++ '#' :: text)
  | .destructor _ => .destructor symbol.record

/--
The back end reads the symbol of the method the way it was written: it is no
covariant thunk, the last `~` is that of a destructor, and the brackets and colons of
a method are where the scan looks for them.
-/
structure MethodSymbol.Readable (symbol : MethodSymbol demangle) : Prop where
  thunk : symbol.thunk ≠ .covariant
  member :
    match symbol.member with
    | .method text => '~' ∉ symbol.record ∧ '~' ∉ text ∧ Scannable text
    | .destructor text => '~' ∉ text

theorem MethodSymbol.canonicalRecordName (symbol : MethodSymbol demangle) :
    getCanonicalRecordName demangle symbol.rttiName = .ok symbol.record := by
  rw [getCanonicalRecordName, symbol.demangledRecord]
  exact congrArg Except.ok (List.drop_left' (by decide))

theorem MethodSymbol.passRecordName (symbol : MethodSymbol demangle) :
    Mcfi.passRecordName symbol.record (symbol.record ++ ':' :: ':' :: symbol.member.text) =
      .ok symbol.member.text := by
  have upTo : symbol.record ++ ':' :: ':' :: symbol.member.text =
      (symbol.record ++ [':', ':']) ++ symbol.member.text := by
    simp
  rw [Mcfi.passRecordName, if_pos (by simp), upTo, List.drop_left' (by simp)]

/-- The front end writes the tag it knows. -/
theorem MethodSymbol.callee_eq (symbol : MethodSymbol demangle) :
    symbol.callee = .ok symbol.tag := by
  have method := symbol.demangledMethod
  have passed := symbol.passRecordName
  rw [MethodSymbol.callee, MethodSymbol.tag]
  cases isMember : symbol.member with
  | method text =>
      rw [isMember] at method passed
      simp only [virtualCallee, getCanonicalMethodName]
      rw [symbol.canonicalRecordName, method]
      refine bind_eq_ok.mpr ⟨_, rfl, bind_eq_ok.mpr ⟨_, rfl, ?_⟩⟩
      exact bind_eq_ok.mpr ⟨_, passed, rfl⟩
  | destructor text =>
      simp only [virtualDestructorCallee]
      rw [symbol.canonicalRecordName]
      rfl

/-- The record of the class names the class and the method that the front end knows. -/
theorem MethodSymbol.hierarchyEntry_eq (symbol : MethodSymbol demangle) :
    symbol.hierarchyEntry = .ok (symbol.record,
      match symbol.member with
      | .method text => text
      | .destructor _ => ['~']) := by
  have method := symbol.demangledMethod
  have passed := symbol.passRecordName
  rw [MethodSymbol.hierarchyEntry]
  cases isMember : symbol.member with
  | method text =>
      rw [isMember] at method passed
      simp only [Mcfi.hierarchyEntry, getCanonicalMethodName]
      rw [symbol.canonicalRecordName, method]
      refine bind_eq_ok.mpr ⟨_, rfl, bind_eq_ok.mpr ⟨_, rfl, ?_⟩⟩
      exact bind_eq_ok.mpr ⟨_, passed, rfl⟩
  | destructor text =>
      simp only [Mcfi.hierarchyEntry]
      rw [symbol.canonicalRecordName]
      rfl

/-- A tag is not much shorter than the name it is split from. -/
theorem length_splitMethodName {name result : Text}
    (returned : splitMethodName name = .ok result) :
    name.length ≤ result.length + 1 := by
  obtain ⟨before, colon, method, split, rfl, _⟩ := splitMethodName_cases returned
  rw [List.length_append, List.length_cons, prefixBefore]
  split
  next =>
    exact Nat.le_succ_of_le (Nat.le_add_right _ _)
  next positive =>
    rw [split, List.take_append_of_le_length (Nat.sub_le _ _), List.length_take,
      List.length_append, List.length_cons]
    omega

/-- Where a name that has a `~` behind its colons is cut. -/
theorem destructor_cut (front text : Text) :
    ∃ tilde className,
      findLastOf '~' (front ++ ':' :: ':' :: '~' :: text) = some tilde ∧
        prefixBefore (front ++ ':' :: ':' :: '~' :: text) tilde 2 = className ∧
        front.length ≤ className.length ∧ (className = front ↔ '~' ∉ text) := by
  rcases clean_or_split '~' text with clean | ⟨before, after, rfl, clean⟩
  · have found := findLastOf_append (front ++ [':', ':']) clean
    rw [List.append_assoc] at found
    have cut : prefixBefore (front ++ ':' :: ':' :: '~' :: text)
        (front ++ [':', ':']).length 2 = front := by
      rw [List.length_append, List.length_cons, List.length_singleton, prefixBefore,
        if_neg (by omega)]
      exact List.take_left' (by omega)
    exact ⟨_, front, found, cut, Nat.le_refl _, (fun _ member => clean _ member rfl),
      fun _ => rfl⟩
  · have found := findLastOf_append (front ++ ':' :: ':' :: '~' :: before) clean
    rw [List.append_assoc] at found
    have length : (prefixBefore (front ++ ':' :: ':' :: '~' :: (before ++ '~' :: after))
        (front ++ ':' :: ':' :: '~' :: before).length 2).length =
          front.length + before.length + 1 := by
      rw [prefixBefore, if_neg (by simp; omega), List.length_take]
      simp only [List.length_append, List.length_cons]
      omega
    refine ⟨_, _, found, rfl, by rw [length]; omega, fun same => ?_, fun never => ?_⟩
    · rw [same] at length
      omega
    · exact absurd (List.mem_append_right _ List.mem_cons_self) never

/-- The name that the back end sees. -/
theorem MethodSymbol.demangledName (symbol : MethodSymbol demangle) :
    cxxDemangledName demangle symbol.linkageName =
      (if symbol.thunk = .covariant then Thunk.covariant.words else []) ++
        (symbol.record ++ ':' :: ':' :: symbol.member.text) := by
  rw [cxxDemangledName_thunk symbol.demangledLinkage symbol.noThunkWords]
  by_cases covariant : symbol.thunk = .covariant
  · rw [if_pos covariant, if_pos covariant, covariant]
  · rw [if_neg covariant, if_neg covariant]
    rfl

/-- What the back end writes about an instance method. -/
theorem mcfiFuncInfo_method {front record text : Text} {functionName : Text}
    (named : cxxDemangledName demangle functionName =
      front ++ (record ++ ':' :: ':' :: text)) :
    mcfiFuncInfo demangle functionName =
        .ok (some (.instanceMethod (record ++ '#' :: text))) ↔
      front = [] ∧ '~' ∉ record ∧ '~' ∉ text ∧ Scannable text := by
  have nonempty : front ++ (record ++ ':' :: ':' :: text) ≠ [] :=
    List.append_ne_nil_of_right_ne_nil _
      (List.append_ne_nil_of_right_ne_nil _ (List.cons_ne_nil _ _))
  rw [mcfiFuncInfo, named, if_neg nonempty]
  constructor
  · intro returned
    cases tilde : findLastOf '~' (front ++ (record ++ ':' :: ':' :: text)) with
    | some position =>
        rw [tilde] at returned
        cases returned
    | none =>
        rw [tilde] at returned
        obtain ⟨name, split, same⟩ := bind_eq_ok.mp returned
        cases same
        have lengths := length_splitMethodName split
        simp only [List.length_append, List.length_cons] at lengths
        obtain rfl : front = [] := List.length_eq_zero_iff.mp (by omega)
        have clean : ∀ c ∈ record ++ ':' :: ':' :: text, c ≠ '~' :=
          findLastOf_eq_none.mp tilde
        exact ⟨rfl, fun member => clean _ (List.mem_append_left _ member) rfl,
          fun member => clean _ (List.mem_append_right _
            (List.mem_cons_of_mem _ (List.mem_cons_of_mem _ member))) rfl,
          splitMethodName_eq_iff.mp split⟩
  · rintro ⟨rfl, cleanRecord, cleanText, scannable⟩
    have noTilde : findLastOf '~' (record ++ ':' :: ':' :: text) = none := by
      refine findLastOf_eq_none.mpr fun c listed isTilde => ?_
      subst isTilde
      rcases List.mem_append.mp listed with inRecord | inText
      · exact cleanRecord inRecord
      · simp only [List.mem_cons, Char.reduceEq, false_or] at inText
        exact cleanText inText
    rw [List.nil_append, noTilde]
    exact bind_eq_ok.mpr ⟨_, splitMethodName_eq_iff.mpr scannable, rfl⟩

/-- What the back end writes about a virtual destructor. -/
theorem mcfiFuncInfo_destructor {front record text : Text} {functionName : Text}
    (named : cxxDemangledName demangle functionName =
      front ++ (record ++ ':' :: ':' :: '~' :: text)) :
    mcfiFuncInfo demangle functionName = .ok (some (.destructor record)) ↔
      front = [] ∧ '~' ∉ text := by
  have nonempty : front ++ (record ++ ':' :: ':' :: '~' :: text) ≠ [] :=
    List.append_ne_nil_of_right_ne_nil _
      (List.append_ne_nil_of_right_ne_nil _ (List.cons_ne_nil _ _))
  obtain ⟨tilde, className, found, cut, atLeast, same⟩ :=
    destructor_cut (front ++ record) text
  rw [List.append_assoc] at found cut
  rw [mcfiFuncInfo, named, if_neg nonempty, found]
  simp only [cut, Except.ok.injEq, Option.some.injEq, MethodTag.destructor.injEq]
  rw [List.length_append] at atLeast
  constructor
  · rintro rfl
    obtain rfl : front = [] := List.length_eq_zero_iff.mp (by omega)
    exact ⟨rfl, same.mp rfl⟩
  · rintro ⟨rfl, clean⟩
    exact same.mpr clean

private theorem covariant_words_eq_nil (symbol : MethodSymbol demangle) :
    (if symbol.thunk = .covariant then Thunk.covariant.words else []) = [] ↔
      symbol.thunk ≠ .covariant := by
  by_cases covariant : symbol.thunk = .covariant
  · rw [if_pos covariant]
    exact ⟨(fun never => nomatch never), fun other => absurd covariant other⟩
  · rw [if_neg covariant]
    exact ⟨fun _ => covariant, fun _ => rfl⟩

private theorem MethodSymbol.readable_iff (symbol : MethodSymbol demangle) :
    symbol.Readable ↔ symbol.thunk ≠ .covariant ∧
      match symbol.member with
      | .method text => '~' ∉ symbol.record ∧ '~' ∉ text ∧ Scannable text
      | .destructor text => '~' ∉ text :=
  ⟨fun readable => ⟨readable.thunk, readable.member⟩,
    fun ⟨thunk, member⟩ => ⟨thunk, member⟩⟩

/-- The back end writes the tag that the front end knows. -/
theorem MethodSymbol.mcfiFuncInfo_iff (symbol : MethodSymbol demangle) :
    mcfiFuncInfo demangle symbol.linkageName = .ok (some symbol.tag) ↔
      symbol.Readable := by
  have named := symbol.demangledName
  have front := covariant_words_eq_nil symbol
  rw [MethodSymbol.tag]
  rw [symbol.readable_iff]
  cases isMember : symbol.member with
  | method text =>
      rw [isMember] at named
      refine (mcfiFuncInfo_method named).trans ?_
      rw [front]
      exact Iff.rfl
  | destructor text =>
      rw [isMember] at named
      refine (mcfiFuncInfo_destructor named).trans ?_
      rw [front]

/--
The front end and the back end name a method or a virtual destructor the same way,
at its calls, in the record of its class and in the record of the function, exactly
when the back end can read the symbol of the function.
-/
theorem method_named_alike (demangle : Text → Option Text)
    (symbol : MethodSymbol demangle) :
    (∃ tag entry,
      mcfiFuncInfo demangle symbol.linkageName = .ok (some tag) ∧
        symbol.callee = .ok tag ∧
        symbol.hierarchyEntry = .ok entry ∧ MethodTag.ofEntry entry = tag) ↔
      symbol.Readable := by
  constructor
  · rintro ⟨tag, entry, written, called, _, _⟩
    rw [symbol.callee_eq] at called
    cases called
    exact symbol.mcfiFuncInfo_iff.mp written
  · intro readable
    refine ⟨symbol.tag, _, symbol.mcfiFuncInfo_iff.mpr readable, symbol.callee_eq,
      symbol.hierarchyEntry_eq, ?_⟩
    have member := readable.member
    rw [MethodSymbol.tag]
    cases isMember : symbol.member with
    | method text =>
        rw [isMember] at member
        obtain ⟨_, clean, _⟩ := member
        refine if_neg fun isTilde => clean ?_
        rw [show text = ['~'] from isTilde]
        exact List.mem_cons_self
    | destructor text =>
        rfl

/-- A demangler on the names of `operator>` of a class. -/
def demangleGreater (name : Text) : Option Text :=
  if name = "_ZTS1A".toList then
    some "typeinfo name for A".toList
  else if name = "_ZNK1AgtERKS_".toList then
    some "A::operator>(A const&) const".toList
  else
    none

/-- `virtual bool operator>(const A&) const` of a class `A`. -/
def greaterSymbol : MethodSymbol demangleGreater where
  record := "A".toList
  member := .method "operator>(A const&) const".toList
  thunk := .method
  rttiName := "_ZTS1A".toList
  mangledName := "_ZNK1AgtERKS_".toList
  linkageName := "_ZNK1AgtERKS_".toList
  demangledRecord := by decide
  demangledMethod := by decide
  demangledLinkage := by decide
  noThunkWords := by
    rw [← contains_iff]
    decide

/-- The scan takes the `>` of an operator for the end of template arguments. -/
theorem method_named_apart :
    ¬ ∀ (demangle : Text → Option Text) (symbol : MethodSymbol demangle),
      ∃ tag entry,
        mcfiFuncInfo demangle symbol.linkageName = .ok (some tag) ∧
          symbol.callee = .ok tag ∧
          symbol.hierarchyEntry = .ok entry ∧ MethodTag.ofEntry entry = tag := by
  intro all
  obtain ⟨tag, _, written, called, _⟩ := all demangleGreater greaterSymbol
  rw [greaterSymbol.callee_eq] at called
  cases called
  -- no `<` is found, so the whole name is the class name
  have whole : mcfiFuncInfo demangleGreater "_ZNK1AgtERKS_".toList =
      .ok (some (.instanceMethod
        ("A::operator>(A const&) const#::operator>(A const&) const".toList))) := by
    decide
  rw [show greaterSymbol.linkageName = "_ZNK1AgtERKS_".toList from rfl, whole] at written
  exact absurd written (by decide)

example :
    splitMethodName "ns::Box<int>::put<char>(void (*)(char)) const".toList =
      .ok "ns::Box<int>#put<char>(void (*)(char)) const".toList := by
  decide

end Symbols

end Mcfi
