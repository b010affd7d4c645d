import Mathlib.Data.List.TakeWhile
import Mcfi.Lib.Numerals
import Mcfi.Sections

namespace Mcfi

/-!
# Type strings

The types of functions and of indirect calls are compared as texts.  The compiler
prints an LLVM type and takes the numbers out of the names of its records: LLVM puts
them behind a name that another record of the process has already.  The pass that
does so copies the text in slices, and counts the length of a slice from the start of
the text.
-/

section Printing

/-- `TagTypeKind`. -/
inductive RecordKind where
  | ttkStruct
  | ttkInterface
  | ttkUnion
  | ttkClass
  deriving DecidableEq, Repr

/-- `getKindName`. -/
def RecordKind.kindName : RecordKind → Text
  | .ttkStruct => "struct".toList
  | .ttkInterface => "__interface".toList
  | .ttkUnion => "union".toList
  | .ttkClass => "class".toList

/-- The characters of an identifier that `SanitizeTypeStr` advances over. -/
def isIdChar (c : Char) : Bool :=
  c.isAlphanum || c == '_' || c == ':'

/-- The characters of a suffix that `SanitizeTypeStr` advances over. -/
def isSuffixChar (c : Char) : Bool :=
  c == '.' || c.isAlphanum

/-- A `%` stands in a character literal only, in front of its quote. -/
def percentsQuoted : Text → Bool
  | [] => true
  | c :: rest => (c != '%' || rest.head? == some '\'') && percentsQuoted rest

/--
The name of a record: what `addRecordTypeName` writes, and the numbers that
`StructType::setName` puts behind it.  The qualified name of a record has a `%` in the
character literals of template arguments only, and a dot behind a parenthesis only, in
the parameters of a function the record is local to.
-/
structure RecordName where
  kind : RecordKind
  name : Text
  baseLayout : Bool
  numbers : List Nat
  percents : percentsQuoted name = true
  dots : (name.dropWhile isIdChar).head? ≠ some '.'

/-- The numbers behind a name, with a dot in front of each. -/
def dottedNumbers (numbers : List Nat) : Text :=
  numbers.flatMap fun number => '.' :: Nat.toDigits 10 number

/-- What is written behind the name: the mark of a base layout and the numbers. -/
def RecordName.suffix (record : RecordName) : Text :=
  (if record.baseLayout then ".base".toList else []) ++ dottedNumbers record.numbers

/-- The name LLVM keeps. -/
def RecordName.typeName (record : RecordName) : Text :=
  record.kind.kindName ++ '.' :: (record.name ++ record.suffix)

/-- The characters of a name that needs no quotes. -/
def isPlainChar (c : Char) : Bool :=
  c.isAlphanum || c == '-' || c == '.' || c == '_'

/-- `hexdigit` of the last four bits. -/
def hexdigit (code : Nat) : Char :=
  (Nat.digitChar (code % 16)).toUpper

/-- `PrintEscapedString`, one character. -/
def escapeChar (c : Char) : Text :=
  if 32 ≤ c.toNat ∧ c.toNat < 127 ∧ c ≠ '\\' ∧ c ≠ '"' then
    [c]
  else
    ['\\', hexdigit (c.toNat / 16), hexdigit c.toNat]

/-- `NeedsQuotes`. -/
def needsQuotes (name : Text) : Bool :=
  (name.head?.any Char.isDigit) || name.any fun c => !isPlainChar c

/-- `PrintLLVMName` of a local name. -/
def printLlvmName (name : Text) : Text :=
  if needsQuotes name then
    '%' :: '"' :: (name.flatMap escapeChar ++ ['"'])
  else
    '%' :: name

/-- The types without parts. -/
inductive Primitive where
  | void | half | float | double | x86Fp80 | fp128 | ppcFp128 | label | metadata | x86Mmx
  deriving DecidableEq, Repr

/-- What `TypePrinting::print` writes for them. -/
def Primitive.text : Primitive → Text
  | .void => "void".toList
  | .half => "half".toList
  | .float => "float".toList
  | .double => "double".toList
  | .x86Fp80 => "x86_fp80".toList
  | .fp128 => "fp128".toList
  | .ppcFp128 => "ppc_fp128".toList
  | .label => "label".toList
  | .metadata => "metadata".toList
  | .x86Mmx => "x86_mmx".toList

/-- What a type refers to a struct by: its name, or its address when it has none. -/
inductive StructRef where
  | record (name : RecordName)
  | unnamed (address : Nat)

/-- LLVM's types; a named struct is referred to, and not its body. -/
inductive LlvmType where
  | primitive (type : Primitive)
  | integer (bitWidth : Nat)
  | function (returnType : LlvmType) (params : List LlvmType) (isVarArg : Bool)
  | literal (isPacked : Bool) (elements : List LlvmType)
  | named (struct : StructRef)
  | pointer (elementType : LlvmType) (addressSpace : Nat)
  | array (numElements : Nat) (elementType : LlvmType)
  | vector (numElements : Nat) (elementType : LlvmType)

/-- What the text of a type is made of. -/
inductive TypePiece where
  | char (c : Char)
  | struct (reference : StructRef)

/-- The characters of a text. -/
def chars (text : Text) : List TypePiece :=
  text.map .char

/-- `printStructBody` around the elements. -/
def printStructBody (isPacked : Bool) (isEmpty : Bool) (elements : List TypePiece) :
    List TypePiece :=
  (if isPacked then chars ['<'] else []) ++
    ((if isEmpty then
        chars "\x7b\x7d".toList
      else
        chars "\x7b ".toList ++ elements ++ chars " \x7d".toList) ++
      (if isPacked then chars ['>'] else []))

mutual

/-- `TypePrinting::print`. -/
def LlvmType.print : LlvmType → List TypePiece
  | .primitive type => chars type.text
  | .integer bitWidth => chars ('i' :: Nat.toDigits 10 bitWidth)
  | .function returnType params isVarArg =>
      returnType.print ++
        (chars " (".toList ++
          (printTypes params ++
            ((if isVarArg then
                chars (if params.isEmpty then "...".toList else ", ...".toList)
              else []) ++
              chars [')'])))
  | .literal isPacked elements =>
      printStructBody isPacked elements.isEmpty (printTypes elements)
  | .named struct => [.struct struct]
  | .pointer elementType addressSpace =>
      elementType.print ++
        ((if addressSpace = 0 then []
          else
            chars " addrspace(".toList ++
              (chars (Nat.toDigits 10 addressSpace) ++ chars [')'])) ++
          chars ['*'])
  | .array numElements elementType =>
      chars ('[' :: (Nat.toDigits 10 numElements ++ " x ".toList)) ++
        (elementType.print ++ chars [']'])
  | .vector numElements elementType =>
      chars ('<' :: (Nat.toDigits 10 numElements ++ " x ".toList)) ++
        (elementType.print ++ chars ['>'])

/-- The loop over the parameters of a function or the elements of a struct. -/
def printTypes : List LlvmType → List TypePiece
  | [] => []
  | type :: rest => type.print ++ printRest rest

/-- The rounds of that loop that write a comma first. -/
def printRest : List LlvmType → List TypePiece
  | [] => []
  | type :: rest => chars ", ".toList ++ (type.print ++ printRest rest)

end

/-- A reference to a struct. -/
def LlvmType.isNamed : LlvmType → Bool
  | .named _ => true
  | _ => false

/-- What `Type::print` is called on: it writes the body of a struct behind its name. -/
inductive PrintedType where
  | type (type : LlvmType) (other : type.isNamed = false)
  | opaqueStruct (struct : StructRef)
  | definedStruct (struct : StructRef) (isPacked : Bool) (elements : List LlvmType)

/-- `Type::print`. -/
def PrintedType.print : PrintedType → List TypePiece
  | .type printed _ => printed.print
  | .opaqueStruct struct =>
      .struct struct :: (chars " = type ".toList ++ chars "opaque".toList)
  | .definedStruct struct isPacked elements =>
      .struct struct :: (chars " = type ".toList ++
        printStructBody isPacked elements.isEmpty (printTypes elements))

/-- What is written for a reference to a struct. -/
def StructRef.text : StructRef → Text
  | .record name => printLlvmName name.typeName
  | .unnamed address => "%\"type 0x".toList ++ (Nat.toDigits 16 address ++ ['"'])

/-- What is written for a piece. -/
def TypePiece.text : TypePiece → Text
  | .char c => [c]
  | .struct reference => reference.text

/-- The text of a type. -/
def printedText (pieces : List TypePiece) : Text :=
  pieces.flatMap TypePiece.text

end Printing

section Sanitizing

/-- `find`, from the front of a text. -/
def findWords (words : Text) : Text → Option Nat
  | [] => if words.isPrefixOf [] then some 0 else none
  | head :: rest =>
      if words.isPrefixOf (head :: rest) then
        some 0
      else
        (findWords words rest).map (· + 1)

/-- `find(words, start)`. -/
def findFrom (words text : Text) (start : Nat) : Option Nat :=
  (findWords words (text.drop start)).map (start + ·)

/-- Where a loop stops that advances from a position over characters. -/
def advance (passes : Char → Bool) (text : Text) (position : Nat) : Nat :=
  position + ((text.drop position).takeWhile passes).length

/-- The loop of `SanitizeTypeStr`; `none` when the rounds do not suffice. -/
def sanitizeLoop (tStr structStr : Text) : Nat → Nat → Text → Option Text
  | 0, _, _ => none
  | rounds + 1, resultPos, postproResult =>
      match findFrom structStr tStr resultPos with
      | none => some (postproResult ++ tStr.drop resultPos)
      | some found =>
          let pos := advance isIdChar tStr (found + structStr.length)
          if tStr.length ≤ pos then
            some (postproResult ++ tStr.drop resultPos)
          else
            sanitizeLoop tStr structStr rounds
              (if tStr[pos]? = some '.' then advance isSuffixChar tStr pos else pos)
              (postproResult ++ substr tStr resultPos pos)

/-- `SanitizeTypeStr`. -/
def sanitizeTypeStr (tStr structStr : Text) : Option Text :=
  sanitizeLoop tStr structStr (tStr.length + 1) 0 []

/-- `TypeStr` of a type with this text. -/
def typeStr (result : Text) : Option Text := do
  let result ← sanitizeTypeStr result "%struct.".toList
  sanitizeTypeStr result "%\"class.".toList

/-- The names that `TypeStr` has sanitized. -/
inductive SanitizedName where
  | struct
  | quotedClass
  deriving DecidableEq, Repr

/-- What they begin with. -/
def SanitizedName.structStr : SanitizedName → Text
  | .struct => "%struct.".toList
  | .quotedClass => "%\"class.".toList

end Sanitizing

section Canonical

variable (names : SanitizedName)

/-- The record that a piece names in the way that is looked for. -/
def TypePiece.identifier : TypePiece → Option RecordName
  | .struct (.record record) =>
      if names.structStr.isPrefixOf (printLlvmName record.typeName) then
        some record
      else
        none
  | _ => none

/-- The identifiers of a type, in order. -/
def identifiers (pieces : List TypePiece) : List RecordName :=
  pieces.filterMap (TypePiece.identifier names)

/-- A name without its numbers. -/
def RecordName.withoutNumbers (record : RecordName) : RecordName :=
  { record with numbers := [] }

/-- A piece without the numbers of an identifier. -/
def TypePiece.canonical (piece : TypePiece) : Text :=
  match piece.identifier names with
  | some record => printLlvmName record.withoutNumbers.typeName
  | none => piece.text

/-- The text of a type without the numbers of its identifiers. -/
def canonicalText (pieces : List TypePiece) : Text :=
  pieces.flatMap (TypePiece.canonical names)

end Canonical

section Names

/-- The codes of the letters and the digits. -/
private theorem alphanum_codes {c : Char} (alphanum : c.isAlphanum = true) :
    (65 ≤ c.toNat ∧ c.toNat ≤ 90 ∨ 97 ≤ c.toNat ∧ c.toNat ≤ 122) ∨
      48 ≤ c.toNat ∧ c.toNat ≤ 57 := by
  have unfolded : c.isAlphanum = ((decide (c.val ≥ 'A'.val ∧ c.val ≤ 'Z'.val) ||
      (c.val ≥ 'a'.val && c.val ≤ 'z'.val)) || (c.val ≥ '0'.val && c.val ≤ '9'.val)) :=
    rfl
  rw [unfolded] at alphanum
  simpa [UInt32.le_iff_toNat_le] using alphanum

/-- A letter or a digit is no other character. -/
theorem ne_of_alphanum {c other : Char} (alphanum : c.isAlphanum = true)
    (different : other.isAlphanum = false) : c ≠ other := by
  rintro rfl
  rw [alphanum] at different
  cases different

/-- A plain character is printed as it is. -/
theorem escapeChar_of_plain {c : Char} (plain : isPlainChar c = true) :
    escapeChar c = [c] := by
  simp only [isPlainChar, Bool.or_eq_true, beq_iff_eq] at plain
  rcases plain with ((alphanum | rfl) | rfl) | rfl
  · have codes := alphanum_codes alphanum
    exact if_pos ⟨by omega, by omega, ne_of_alphanum alphanum rfl,
      ne_of_alphanum alphanum rfl⟩
  all_goals rfl

private theorem escape_plain {text : Text} (plain : ∀ c ∈ text, isPlainChar c = true) :
    text.flatMap escapeChar = text := by
  induction text with
  | nil => rfl
  | cons c rest inductionHypothesis =>
      rw [List.flatMap_cons, escapeChar_of_plain (plain c List.mem_cons_self),
        inductionHypothesis fun other listed => plain other (List.mem_cons_of_mem _ listed)]
      rfl

/-- A digit of a number is a letter or a digit. -/
private theorem alphanum_of_numbers {numbers : List Nat} {c : Char}
    (listed : c ∈ dottedNumbers numbers) : c = '.' ∨ c.isAlphanum = true := by
  obtain ⟨number, _, inside⟩ := List.mem_flatMap.mp listed
  rcases List.mem_cons.mp inside with dot | digit
  · exact Or.inl dot
  · exact Or.inr (Numerals.isAlphanum_of_mem_toDigits (by decide) (by decide) digit)

variable (record : RecordName)

/-- The suffix is made of dots, letters and digits. -/
theorem RecordName.suffix_char {c : Char} (listed : c ∈ record.suffix) :
    isSuffixChar c = true := by
  rcases List.mem_append.mp listed with base | number
  · split at base
    next =>
      have each : ".base".toList.all isSuffixChar = true := rfl
      exact List.all_eq_true.mp each c base
    next => cases base
  · rcases alphanum_of_numbers number with rfl | alphanum
    · rfl
    · simp [isSuffixChar, alphanum]

private theorem plain_of_suffixChar {c : Char} (suffix : isSuffixChar c = true) :
    isPlainChar c = true := by
  rcases Bool.or_eq_true_iff.mp suffix with dot | alphanum
  · simp [isPlainChar, beq_iff_eq.mp dot]
  · simp [isPlainChar, alphanum]

/-- A suffix begins with a dot. -/
theorem RecordName.suffix_head {c : Char} (first : c ∈ record.suffix.head?) : c = '.' := by
  unfold RecordName.suffix dottedNumbers at first
  cases base : record.baseLayout with
  | true =>
      rw [base] at first
      exact (Option.some.inj first).symm
  | false =>
      rw [base] at first
      cases numbers : record.numbers with
      | nil =>
          rw [numbers] at first
          cases first
      | cons number rest =>
          rw [numbers] at first
          exact (Option.some.inj first).symm

/-- A name has quotes when a character of it needs them. -/
def RecordName.isQuoted : Bool :=
  record.name.any fun c => !isPlainChar c

theorem RecordName.needsQuotes_typeName :
    needsQuotes record.typeName = record.isQuoted := by
  have suffix : (record.suffix.any fun c => !isPlainChar c) = false := by
    refine List.any_eq_false.mpr fun c listed => ?_
    simp [plain_of_suffixChar (record.suffix_char listed)]
  have dot : isPlainChar '.' = true := rfl
  have kind : (record.kind.kindName.head?.any Char.isDigit) = false ∧
      (record.kind.kindName.any fun c => !isPlainChar c) = false ∧
      record.kind.kindName ≠ [] := by
    cases record.kind <;> decide
  obtain ⟨noDigit, plain, some⟩ := kind
  obtain ⟨first, rest, isKind⟩ := List.exists_cons_of_ne_nil some
  have head : record.typeName.head? = record.kind.kindName.head? := by
    simp [typeName, isKind]
  rw [needsQuotes, head, noDigit, Bool.false_or, typeName, List.any_append, plain,
    List.any_cons, List.any_append, suffix, dot, isQuoted]
  simp

/-- What is written in front of the name of a record. -/
def RecordName.opening : Text :=
  '%' :: ((if record.isQuoted then ['"'] else []) ++ (record.kind.kindName ++ ['.']))

/-- The quote that is written behind it. -/
def RecordName.closing : Text :=
  if record.isQuoted then ['"'] else []

/-- The text of a name. -/
theorem RecordName.print_eq :
    printLlvmName record.typeName =
      record.opening ++
        (record.name.flatMap escapeChar ++ (record.suffix ++ record.closing)) := by
  rw [printLlvmName, record.needsQuotes_typeName]
  cases quoted : record.isQuoted with
  | true =>
      have kind : record.kind.kindName.flatMap escapeChar = record.kind.kindName := by
        cases record.kind <;> rfl
      have suffix : record.suffix.flatMap escapeChar = record.suffix :=
        escape_plain fun c listed => plain_of_suffixChar (record.suffix_char listed)
      have dot : escapeChar '.' = ['.'] := rfl
      simp [typeName, opening, closing, quoted, kind, suffix, dot]
  | false =>
      have plain : record.name.flatMap escapeChar = record.name := by
        refine escape_plain fun c listed => ?_
        simpa using List.any_eq_false.mp quoted c listed
      simp [typeName, opening, closing, quoted, plain]

/-- The words that are looked for are in front of a name when it opens with them. -/
theorem RecordName.finds_eq (names : SanitizedName) (rest : Text) :
    names.structStr.isPrefixOf (record.opening ++ rest) =
      decide (record.opening = names.structStr) := by
  unfold RecordName.opening
  cases names <;> cases record.isQuoted <;> cases record.kind <;> rfl

/-- The part of a name that `SanitizeTypeStr` advances over. -/
def RecordName.idPart : Text :=
  record.name.takeWhile isIdChar

/-- The part of a name from the first character on that it stops at. -/
def RecordName.outside : Text :=
  record.name.dropWhile isIdChar

/-- The part of a name that `SanitizeTypeStr` takes out. -/
def RecordName.taken : Text :=
  if record.outside = [] then record.suffix else []

/-- The part of a name that is left behind the part taken out. -/
def RecordName.leftOver : Text :=
  if record.outside = [] then
    record.closing
  else
    record.outside.flatMap escapeChar ++ (record.suffix ++ record.closing)

private theorem plain_of_id {c : Char} (id : isIdChar c = true) : escapeChar c = [c] := by
  simp only [isIdChar, Bool.or_eq_true, beq_iff_eq] at id
  rcases id with (alphanum | rfl) | rfl
  · exact escapeChar_of_plain (by simp [isPlainChar, alphanum])
  all_goals rfl

private theorem escape_ids {text : Text} (ids : ∀ c ∈ text, isIdChar c = true) :
    text.flatMap escapeChar = text := by
  induction text with
  | nil => rfl
  | cons c rest inductionHypothesis =>
      rw [List.flatMap_cons, plain_of_id (ids c List.mem_cons_self),
        inductionHypothesis fun other listed => ids other (List.mem_cons_of_mem _ listed)]
      rfl

theorem RecordName.idPart_id {c : Char} (listed : c ∈ record.idPart) :
    isIdChar c = true :=
  List.mem_takeWhile_imp listed

/-- The text of a name, in the parts `SanitizeTypeStr` cuts it into. -/
theorem RecordName.print_parts :
    printLlvmName record.typeName =
      record.opening ++ (record.idPart ++ (record.taken ++ record.leftOver)) := by
  have whole : record.name.flatMap escapeChar =
      record.idPart ++ record.outside.flatMap escapeChar := by
    have split : record.name = record.idPart ++ record.outside :=
      List.takeWhile_append_dropWhile.symm
    calc record.name.flatMap escapeChar
        = (record.idPart ++ record.outside).flatMap escapeChar := by rw [← split]
      _ = record.idPart ++ record.outside.flatMap escapeChar := by
          rw [List.flatMap_append, escape_ids fun c => record.idPart_id]
  rw [record.print_eq, whole]
  unfold taken leftOver
  split
  next bare => simp [bare]
  next => simp

end Names

section Punctuation

/-- The characters that neither loop advances over. -/
def isSeparator (c : Char) : Bool :=
  !isIdChar c && !isSuffixChar c

/-- A separator is next. -/
def SeparatorFirst (pieces : List TypePiece) : Prop :=
  ∃ c rest, pieces = .char c :: rest ∧ isSeparator c = true

/-- No percent sign stands alone, and a separator is behind each name. -/
def Punctuated : List TypePiece → Prop
  | [] => True
  | .char c :: rest => c ≠ '%' ∧ Punctuated rest
  | .struct _ :: rest => SeparatorFirst rest ∧ Punctuated rest

private theorem punctuated_chars {text : Text} {rest : List TypePiece}
    (percents : '%' ∉ text) (behind : Punctuated rest) :
    Punctuated (chars text ++ rest) := by
  induction text with
  | nil => exact behind
  | cons c others inductionHypothesis =>
      rw [List.mem_cons, not_or] at percents
      exact ⟨Ne.symm percents.1, inductionHypothesis percents.2⟩

private theorem no_percent_of_digits (number : Nat) : '%' ∉ Nat.toDigits 10 number :=
  fun listed => absurd
    (Numerals.isAlphanum_of_mem_toDigits (by decide) (by decide) listed) (by decide)

private theorem punctuated_close {c : Char} {rest : List TypePiece} (other : c ≠ '%')
    (behind : Punctuated rest) : Punctuated (chars [c] ++ rest) :=
  ⟨other, behind⟩

private theorem separatorFirst_chars {c : Char} {text : Text} {rest : List TypePiece}
    (separator : isSeparator c = true) : SeparatorFirst (chars (c :: text) ++ rest) :=
  ⟨c, chars text ++ rest, rfl, separator⟩

/-- A body of a struct is punctuated when its elements are. -/
private theorem punctuated_body {elements rest : List TypePiece}
    (isPacked isEmpty : Bool)
    (inside : ∀ behind, SeparatorFirst behind → Punctuated behind →
      Punctuated (elements ++ behind))
    (behind : Punctuated rest) :
    Punctuated (printStructBody isPacked isEmpty elements ++ rest) := by
  have packed : ∀ c : Char, c ≠ '%' → ∀ rest, Punctuated rest →
      Punctuated ((if isPacked then chars [c] else []) ++ rest) := by
    intro c other rest behind
    cases isPacked with
    | true => exact punctuated_close other behind
    | false => exact behind
  have closed := packed '>' (by decide) rest behind
  unfold printStructBody
  rw [List.append_assoc, List.append_assoc]
  refine packed '<' (by decide) _ ?_
  cases isEmpty with
  | true => exact punctuated_chars (by decide) closed
  | false =>
      rw [if_neg (by decide), List.append_assoc, List.append_assoc]
      apply punctuated_chars (by decide)
      apply inside
      · exact separatorFirst_chars (by decide)
      · exact punctuated_chars (by decide) closed

mutual

/-- The text of a type is punctuated where a name at its end is. -/
theorem LlvmType.punctuated_print : (type : LlvmType) → {rest : List TypePiece} →
    (type.isNamed = false ∨ SeparatorFirst rest) → Punctuated rest →
    Punctuated (type.print ++ rest)
  | .primitive type, rest, _, behind => by
      unfold LlvmType.print
      refine punctuated_chars ?_ behind
      cases type <;> decide
  | .integer bitWidth, rest, _, behind => by
      unfold LlvmType.print
      refine punctuated_chars ?_ behind
      rw [List.mem_cons, not_or]
      exact ⟨by decide, no_percent_of_digits bitWidth⟩
  | .function returnType params isVarArg, rest, _, behind => by
      unfold LlvmType.print
      simp only [List.append_assoc]
      apply returnType.punctuated_print (Or.inr (separatorFirst_chars (by decide)))
      apply punctuated_chars (by decide)
      have closed : Punctuated (chars [')'] ++ rest) :=
        punctuated_close (by decide) behind
      cases isVarArg with
      | false =>
          exact punctuated_printTypes params
            (Or.inr (separatorFirst_chars (by decide))) closed
      | true =>
          cases params with
          | nil => exact punctuated_chars (by decide) closed
          | cons param others =>
              exact punctuated_printTypes (param :: others)
                (Or.inr (separatorFirst_chars (by decide)))
                (punctuated_chars (show '%' ∉ ", ...".toList by decide) closed)
  | .literal isPacked elements, rest, _, behind => by
      unfold LlvmType.print
      exact punctuated_body isPacked _
        (fun _ first later => punctuated_printTypes elements (Or.inr first) later) behind
  | .named struct, rest, ended, behind => by
      unfold LlvmType.print
      refine ⟨?_, behind⟩
      rcases ended with never | first
      · cases never
      · exact first
  | .pointer elementType addressSpace, rest, _, behind => by
      unfold LlvmType.print
      rw [List.append_assoc, List.append_assoc]
      have closed : Punctuated (chars ['*'] ++ rest) :=
        punctuated_close (by decide) behind
      split
      next =>
        exact elementType.punctuated_print
          (Or.inr (separatorFirst_chars (by decide))) closed
      next =>
        rw [List.append_assoc, List.append_assoc]
        apply elementType.punctuated_print (Or.inr (separatorFirst_chars (by decide)))
        apply punctuated_chars (by decide)
        exact punctuated_chars (no_percent_of_digits addressSpace)
          (punctuated_close (by decide) closed)
  | .array numElements elementType, rest, _, behind => by
      unfold LlvmType.print
      rw [List.append_assoc, List.append_assoc]
      apply punctuated_chars
      · rw [List.mem_cons, List.mem_append, not_or, not_or]
        exact ⟨by decide, no_percent_of_digits numElements, by decide⟩
      · exact elementType.punctuated_print
          (Or.inr (separatorFirst_chars (by decide)))
          (punctuated_close (by decide) behind)
  | .vector numElements elementType, rest, _, behind => by
      unfold LlvmType.print
      rw [List.append_assoc, List.append_assoc]
      apply punctuated_chars
      · rw [List.mem_cons, List.mem_append, not_or, not_or]
        exact ⟨by decide, no_percent_of_digits numElements, by decide⟩
      · exact elementType.punctuated_print
          (Or.inr (separatorFirst_chars (by decide)))
          (punctuated_close (by decide) behind)

/-- The types of a list are printed with a separator behind each. -/
theorem punctuated_printTypes : (types : List LlvmType) → {rest : List TypePiece} →
    (types = [] ∨ SeparatorFirst rest) → Punctuated rest →
    Punctuated (printTypes types ++ rest)
  | [], rest, _, behind => by
      unfold printTypes
      exact behind
  | type :: others, rest, ended, behind => by
      have first : SeparatorFirst rest := ended.resolve_left (List.cons_ne_nil _ _)
      have later := punctuated_printRest others first behind
      unfold printTypes
      rw [List.append_assoc]
      exact type.punctuated_print (Or.inr later.1) later.2

/-- So are the types behind the first. -/
theorem punctuated_printRest : (types : List LlvmType) → {rest : List TypePiece} →
    SeparatorFirst rest → Punctuated rest →
    SeparatorFirst (printRest types ++ rest) ∧ Punctuated (printRest types ++ rest)
  | [], rest, first, behind => by
      unfold printRest
      exact ⟨first, behind⟩
  | type :: others, rest, first, behind => by
      have later := punctuated_printRest others first behind
      unfold printRest
      rw [List.append_assoc, List.append_assoc]
      exact ⟨separatorFirst_chars (by decide),
        punctuated_chars (by decide) (type.punctuated_print (Or.inr later.1) later.2)⟩

end

/-- The text that is printed for a type is punctuated. -/
theorem PrintedType.punctuated (type : PrintedType) : Punctuated type.print := by
  cases type with
  | type type other =>
      simpa [PrintedType.print] using
        type.punctuated_print (Or.inl other) (show Punctuated [] from trivial)
  | opaqueStruct struct =>
      refine ⟨separatorFirst_chars (by decide), ?_⟩
      simpa using punctuated_chars (by decide) (punctuated_chars (by decide)
        (show Punctuated [] from trivial))
  | definedStruct struct isPacked elements =>
      refine ⟨separatorFirst_chars (by decide), punctuated_chars (by decide) ?_⟩
      simpa using punctuated_body isPacked elements.isEmpty
        (fun _ first later => punctuated_printTypes elements (Or.inr first) later)
        (show Punctuated [] from trivial)

end Punctuation

section Searching

/-- The words do not begin inside a part of a text. -/
def Quiet (words : Text) : Text → Text → Prop
  | [], _ => True
  | c :: part, rest =>
      words.isPrefixOf (c :: (part ++ rest)) = false ∧ Quiet words part rest

variable {words part other rest : Text}

theorem quiet_append :
    Quiet words (part ++ other) rest ↔
      Quiet words part (other ++ rest) ∧ Quiet words other rest := by
  induction part with
  | nil => simp [Quiet]
  | cons c part inductionHypothesis =>
      rw [List.cons_append, Quiet, Quiet, inductionHypothesis, List.append_assoc,
        and_assoc]

/-- A search goes over a part that the words do not begin in. -/
theorem findWords_append (quiet : Quiet words part rest) :
    findWords words (part ++ rest) =
      (findWords words rest).map (part.length + ·) := by
  induction part with
  | nil => simp
  | cons c part inductionHypothesis =>
      obtain ⟨here, later⟩ := quiet
      rw [List.cons_append, findWords, if_neg (by simp [here]), inductionHypothesis later,
        Option.map_map]
      refine congrFun (congrArg Option.map (funext fun position => ?_)) _
      simp only [Function.comp_apply, List.length_cons]
      omega

/-- A search finds the words it begins with. -/
theorem findWords_of_isPrefixOf (first : words.isPrefixOf rest = true) :
    findWords words rest = some 0 := by
  cases rest with
  | nil => rw [findWords, if_pos first]
  | cons c rest => rw [findWords, if_pos first]

variable {names : SanitizedName}

/-- The words begin with a percent sign. -/
private theorem not_words_of_ne {c : Char} (other : c ≠ '%') (text : Text) :
    names.structStr.isPrefixOf (c :: text) = false := by
  have first : ∃ rest, names.structStr = '%' :: rest := by
    cases names <;> exact ⟨_, rfl⟩
  obtain ⟨words, opens⟩ := first
  rw [opens, List.isPrefixOf, Bool.and_eq_false_iff]
  exact Or.inl (beq_eq_false_iff_ne.mpr (Ne.symm other))

/-- The words do not begin where there is no percent sign. -/
theorem quiet_of_no_percent (percents : '%' ∉ part) :
    Quiet names.structStr part rest := by
  induction part with
  | nil => trivial
  | cons c part inductionHypothesis =>
      rw [List.mem_cons, not_or] at percents
      exact ⟨not_words_of_ne (Ne.symm percents.1) _, inductionHypothesis percents.2⟩

private theorem escapeChar_no_percent {c : Char} (other : c ≠ '%') :
    '%' ∉ escapeChar c := by
  have each : ∀ digit : Fin 16, (Nat.digitChar digit).toUpper ≠ '%' := by
    decide
  have digit : ∀ code, hexdigit code ≠ '%' :=
    fun code => each ⟨code % 16, Nat.mod_lt _ (by decide)⟩
  unfold escapeChar
  split
  next => simpa using Ne.symm other
  next =>
    intro listed
    rcases List.mem_cons.mp listed with backslash | listed
    · cases backslash
    rcases List.mem_cons.mp listed with first | listed
    · exact digit _ first.symm
    · exact digit _ (List.mem_singleton.mp listed).symm

/-- The words do not begin in a name. -/
theorem quiet_escape (percents : percentsQuoted part = true) :
    Quiet names.structStr (part.flatMap escapeChar) rest := by
  induction part with
  | nil => trivial
  | cons c part inductionHypothesis =>
      rw [percentsQuoted, Bool.and_eq_true] at percents
      obtain ⟨here, later⟩ := percents
      rw [List.flatMap_cons, quiet_append]
      refine ⟨?_, inductionHypothesis later⟩
      by_cases percent : c = '%'
      · subst percent
        cases part with
        | nil => cases here
        | cons next part =>
            have quote : next = '\'' := by simpa using here
            subst quote
            refine ⟨?_, trivial⟩
            cases names <;> rfl
      · exact quiet_of_no_percent (escapeChar_no_percent percent)

private theorem percentsQuoted_of_append
    (percents : percentsQuoted (part ++ rest) = true) : percentsQuoted rest = true := by
  induction part with
  | nil => exact percents
  | cons c part inductionHypothesis =>
      rw [List.cons_append, percentsQuoted, Bool.and_eq_true] at percents
      exact inductionHypothesis percents.2

variable (record : RecordName)

private theorem RecordName.suffix_no_percent : '%' ∉ record.suffix :=
  fun listed => absurd (record.suffix_char listed) (by decide)

private theorem RecordName.closing_no_percent : '%' ∉ record.closing := by
  unfold closing
  split <;> decide

private theorem RecordName.kind_no_percent :
    '%' ∉ (if record.isQuoted then ['"'] else []) ++ (record.kind.kindName ++ ['.']) := by
  cases record.isQuoted <;> cases record.kind <;> decide

/-- What is left of a name behind the part taken out has no words in it. -/
theorem RecordName.quiet_leftOver : Quiet names.structStr record.leftOver rest := by
  unfold leftOver
  split
  next => exact quiet_of_no_percent record.closing_no_percent
  next =>
    have tail : percentsQuoted record.outside = true := by
      have whole := record.percents
      rw [← List.takeWhile_append_dropWhile (p := isIdChar) (l := record.name)] at whole
      exact percentsQuoted_of_append whole
    rw [quiet_append, quiet_append]
    exact ⟨quiet_escape tail, quiet_of_no_percent record.suffix_no_percent,
      quiet_of_no_percent record.closing_no_percent⟩

/-- The words do not begin in a piece other than an identifier. -/
theorem TypePiece.quiet {piece : TypePiece} (other : piece.identifier names = none)
    (percent : ∀ c, piece = .char c → c ≠ '%') :
    Quiet names.structStr piece.text rest := by
  cases piece with
  | char c => exact ⟨not_words_of_ne (percent c rfl) _, trivial⟩
  | struct reference =>
      cases reference with
      | unnamed address =>
          refine ⟨?_, quiet_of_no_percent ?_⟩
          · cases names <;> rfl
          · intro listed
            have digits : '%' ∉ Nat.toDigits 16 address := fun inside => absurd
              (Numerals.isAlphanum_of_mem_toDigits (by decide) (by decide) inside)
              (by decide)
            have words : '%' ∉ "\"type 0x".toList := by decide
            change '%' ∈ "\"type 0x".toList ++ (Nat.toDigits 16 address ++ ['"']) at listed
            simp only [List.mem_append, List.mem_singleton] at listed
            rcases listed with early | digit | quote
            · exact words early
            · exact digits digit
            · cases quote
      | record name =>
          have opens : name.opening ≠ names.structStr := by
            rintro same
            rw [TypePiece.identifier, name.print_eq, name.finds_eq names,
              if_pos (decide_eq_true same)] at other
            cases other
          change Quiet _ (printLlvmName name.typeName) rest
          rw [name.print_eq, quiet_append, quiet_append, quiet_append]
          refine ⟨⟨?_, quiet_of_no_percent name.kind_no_percent⟩,
            quiet_escape name.percents, quiet_of_no_percent name.suffix_no_percent,
            quiet_of_no_percent name.closing_no_percent⟩
          exact (name.finds_eq names _).trans (decide_eq_false opens)

end Searching

section Rounds

variable (record : RecordName) {behind : Text}

/-- The head of two texts is one of the first, or of the second behind nothing. -/
private theorem head_append {text behind : Text} {c : Char}
    (first : c ∈ (text ++ behind).head?) :
    c ∈ text.head? ∨ text = [] ∧ c ∈ behind.head? := by
  cases text with
  | nil => exact Or.inr ⟨rfl, first⟩
  | cons head rest => exact Or.inl first

/-- What stands behind the characters of a name that are advanced over. -/
theorem RecordName.stop_char (separated : ∀ c ∈ behind.head?, isSeparator c = true)
    {c : Char} (first : c ∈ (record.taken ++ (record.leftOver ++ behind)).head?) :
    isIdChar c = false ∧ (c = '.' ↔ record.taken ≠ []) := by
  have escaped : ∀ d, isIdChar d = false → d ≠ '.' →
      ∀ c ∈ (escapeChar d).head?, isIdChar c = false ∧ c ≠ '.' := by
    intro d other dot c first
    unfold escapeChar at first
    split at first
    all_goals cases first
    · exact ⟨other, dot⟩
    · decide
  by_cases bare : record.outside = []
  · rcases head_append first with suffix | ⟨nothing, next⟩
    · have some : record.taken ≠ [] := by
        intro none
        rw [none] at suffix
        cases suffix
      rw [taken, if_pos bare] at suffix
      cases record.suffix_head suffix
      exact ⟨rfl, iff_of_true rfl some⟩
    · have other : isIdChar c = false ∧ c ≠ '.' := by
        rw [leftOver, if_pos bare] at next
        rcases head_append next with quote | ⟨_, separator⟩
        · unfold closing at quote
          split at quote <;> cases quote
          decide
        · have parts := separated c separator
          rw [isSeparator, Bool.and_eq_true, Bool.not_eq_true', Bool.not_eq_true'] at parts
          refine ⟨parts.1, ?_⟩
          rintro rfl
          exact absurd parts.2 (by decide)
      exact ⟨other.1, iff_of_false other.2 (not_not.mpr nothing)⟩
  · obtain ⟨d, rest, isOutside⟩ := List.exists_cons_of_ne_nil bare
    have headIs : record.outside.head? = some d := by rw [isOutside]; rfl
    have stops : isIdChar d = false := by
      have stopped := List.head?_dropWhile_not isIdChar record.name
      rw [show record.name.dropWhile isIdChar = d :: rest from isOutside] at stopped
      simpa using stopped
    have dot : d ≠ '.' := by
      rintro rfl
      exact record.dots headIs
    have none : record.taken = [] := if_neg bare
    rw [none, List.nil_append, leftOver, if_neg bare, isOutside, List.flatMap_cons,
      List.append_assoc, List.append_assoc] at first
    rcases head_append first with here | ⟨empty, _⟩
    · have held := escaped d stops dot c here
      exact ⟨held.1, iff_of_false held.2 (not_not.mpr none)⟩
    · unfold escapeChar at empty
      split at empty <;> cases empty

/-- What stands behind a suffix that is taken out. -/
theorem RecordName.stop_suffix (separated : ∀ c ∈ behind.head?, isSeparator c = true)
    (some : record.taken ≠ []) :
    ∀ c ∈ (record.leftOver ++ behind).head?, isSuffixChar c = false := by
  intro c first
  have bare : record.outside = [] := by
    by_contra other
    exact some (if_neg other)
  rw [leftOver, if_pos bare] at first
  rcases head_append first with quote | ⟨_, separator⟩
  · unfold closing at quote
    split at quote <;> cases quote
    rfl
  · have parts := separated c separator
    rw [isSeparator, Bool.and_eq_true, Bool.not_eq_true', Bool.not_eq_true'] at parts
    exact parts.2

theorem RecordName.taken_char {c : Char} (listed : c ∈ record.taken) :
    isSuffixChar c = true := by
  unfold taken at listed
  split at listed
  · exact record.suffix_char listed
  · cases listed

/-- A loop advances over the characters of a part. -/
theorem advance_append {passes : Char → Bool} {lead part behind : Text}
    (inside : ∀ c ∈ part, passes c = true) (stops : ∀ c ∈ behind.head?, passes c = false) :
    advance passes (lead ++ (part ++ behind)) lead.length = (lead ++ part).length := by
  rw [advance, List.drop_left, Delimited.takeWhile_append_stops inside stops,
    List.length_append]

variable {names : SanitizedName} {passed : Text}

/-- A round of the loop that finds an identifier. -/
theorem sanitizeLoop_found (lead : Text) (opens : record.opening = names.structStr)
    (quiet : Quiet names.structStr passed (printLlvmName record.typeName ++ behind))
    (separated : ∃ c ∈ behind.head?, isSeparator c = true) (rounds : Nat) (result : Text) :
    sanitizeLoop (lead ++ (passed ++ (printLlvmName record.typeName ++ behind)))
        names.structStr (rounds + 1) lead.length result =
      sanitizeLoop (lead ++ (passed ++ (printLlvmName record.typeName ++ behind)))
        names.structStr rounds
        (lead ++ (passed ++ (record.opening ++ (record.idPart ++ record.taken)))).length
        (result ++ (passed ++ (printLlvmName record.typeName ++ behind)).take
          (lead ++ (passed ++ (record.opening ++ record.idPart))).length) := by
  obtain ⟨separator, first, isSeparator⟩ := separated
  have separated : ∀ c ∈ behind.head?, Mcfi.isSeparator c = true := by
    intro c here
    cases Option.mem_unique first here
    exact isSeparator
  have split : lead ++ (passed ++ (printLlvmName record.typeName ++ behind)) =
      (lead ++ (passed ++ (record.opening ++ record.idPart))) ++
        (record.taken ++ (record.leftOver ++ behind)) := by
    simp [record.print_parts]
  have found : findFrom names.structStr
      (lead ++ (passed ++ (printLlvmName record.typeName ++ behind))) lead.length =
        some (lead ++ passed).length := by
    have here : names.structStr.isPrefixOf (printLlvmName record.typeName ++ behind) =
        true := by
      rw [record.print_eq, List.append_assoc, record.finds_eq]
      exact decide_eq_true opens
    rw [findFrom, List.drop_left, findWords_append quiet, findWords_of_isPrefixOf here,
      List.length_append]
    rfl
  have atName : advance isIdChar
      (lead ++ (passed ++ (printLlvmName record.typeName ++ behind)))
        ((lead ++ passed).length + names.structStr.length) =
      (lead ++ (passed ++ (record.opening ++ record.idPart))).length := by
    have advanced : advance isIdChar
        ((lead ++ (passed ++ record.opening)) ++
          (record.idPart ++ (record.taken ++ (record.leftOver ++ behind))))
        (lead ++ (passed ++ record.opening)).length = _ :=
      advance_append (fun c => record.idPart_id)
        fun c here => (record.stop_char separated here).1
    rw [record.print_parts, ← opens]
    simpa [Nat.add_assoc] using advanced
  have next : (lead ++ (passed ++ (printLlvmName record.typeName ++ behind)))[
        (lead ++ (passed ++ (record.opening ++ record.idPart))).length]? =
      (record.taken ++ (record.leftOver ++ behind)).head? := by
    rw [split, List.getElem?_append_right (Nat.le_refl _), Nat.sub_self, List.head?_eq_getElem?]
  have inText : ¬ (lead ++ (passed ++ (printLlvmName record.typeName ++ behind))).length ≤
      (lead ++ (passed ++ (record.opening ++ record.idPart))).length := by
    have some : 0 < behind.length := by
      cases behind with
      | nil => cases first
      | cons c rest => exact Nat.succ_pos _
    simp only [split, List.length_append]
    omega
  have resumes : (if (record.taken ++ (record.leftOver ++ behind)).head? = some '.' then
        advance isSuffixChar
          (lead ++ (passed ++ (printLlvmName record.typeName ++ behind)))
          (lead ++ (passed ++ (record.opening ++ record.idPart))).length
      else
        (lead ++ (passed ++ (record.opening ++ record.idPart))).length) =
      (lead ++ (passed ++ (record.opening ++ (record.idPart ++ record.taken)))).length := by
    split
    next dot =>
      have some := (record.stop_char separated dot).2.mp rfl
      rw [split, advance_append (fun c => record.taken_char)
        (record.stop_suffix separated some)]
      simp
    next dot =>
      have none : record.taken = [] := by
        by_contra some
        obtain ⟨c, rest, isTaken⟩ := List.exists_cons_of_ne_nil some
        have here : c ∈ (record.taken ++ (record.leftOver ++ behind)).head? := by
          rw [isTaken]
          rfl
        cases (record.stop_char separated here).2.mpr some
        exact dot here
      rw [none, List.append_nil]
  rw [sanitizeLoop, found]
  dsimp only
  rw [atName, if_neg inText, next, resumes, substr, List.drop_left]

/--
What the loop writes from a position on, for the text it has passed since and the
pieces behind: a slice as long as the text up to the end of the name, at each
identifier.
-/
def writtenFrom (names : SanitizedName) : Nat → Text → List TypePiece → Text
  | _, passed, [] => passed
  | resultPos, passed, piece :: rest =>
      match piece.identifier names with
      | none => writtenFrom names resultPos (passed ++ piece.text) rest
      | some record =>
          let pos := resultPos + passed.length +
            (record.opening.length + record.idPart.length)
          (passed ++ (piece.text ++ printedText rest)).take pos ++
            writtenFrom names (pos + record.taken.length) record.leftOver rest

/-- An identifier is the name of a record that opens with the words. -/
theorem TypePiece.identifier_eq_some {piece : TypePiece} {record : RecordName} :
    piece.identifier names = some record ↔
      piece = .struct (.record record) ∧ record.opening = names.structStr := by
  unfold identifier
  split
  next name =>
    rw [name.print_eq, name.finds_eq names]
    split
    next opens =>
      rw [Option.some.injEq]
      constructor
      · rintro rfl
        exact ⟨rfl, of_decide_eq_true opens⟩
      · rintro ⟨same, _⟩
        cases same
        rfl
    next other =>
      refine iff_of_false (fun never => nomatch never) ?_
      rintro ⟨same, opens⟩
      cases same
      exact other (decide_eq_true opens)
  next other =>
    refine iff_of_false (fun never => nomatch never) ?_
    rintro ⟨rfl, _⟩
    exact other record rfl

private theorem separated_text {pieces : List TypePiece} (first : SeparatorFirst pieces) :
    ∃ c ∈ (printedText pieces).head?, isSeparator c = true := by
  obtain ⟨c, rest, rfl, separator⟩ := first
  exact ⟨c, rfl, separator⟩

theorem Punctuated.tail {piece : TypePiece} {rest : List TypePiece}
    (punctuated : Punctuated (piece :: rest)) : Punctuated rest := by
  cases piece <;> exact punctuated.2

/-- The loop writes what the pieces say, with more rounds than there are identifiers. -/
theorem sanitizeLoop_eq (pieces : List TypePiece) {passed : Text} {rounds : Nat}
    (lead result : Text) (punctuated : Punctuated pieces)
    (quiet : Quiet names.structStr passed (printedText pieces))
    (enough : (identifiers names pieces).length < rounds) :
    sanitizeLoop (lead ++ (passed ++ printedText pieces)) names.structStr rounds
        lead.length result =
      some (result ++ writtenFrom names lead.length passed pieces) := by
  induction pieces generalizing lead passed rounds result with
  | nil =>
      obtain ⟨rounds, rfl⟩ := Nat.exists_eq_succ_of_ne_zero (Nat.ne_of_gt enough)
      have none : findFrom names.structStr (lead ++ (passed ++ printedText []))
          lead.length = none := by
        rw [findFrom, List.drop_left, findWords_append quiet]
        cases names <;> rfl
      rw [sanitizeLoop, none]
      simp [printedText, writtenFrom]
  | cons piece rest inductionHypothesis =>
      have text : printedText (piece :: rest) = piece.text ++ printedText rest :=
        List.flatMap_cons
      rw [text] at quiet ⊢
      cases found : piece.identifier names with
      | none =>
          have percent : ∀ c, piece = .char c → c ≠ '%' := by
            rintro c rfl
            exact punctuated.1
          have next := inductionHypothesis lead result punctuated.tail
            (quiet_append.mpr ⟨quiet, TypePiece.quiet found percent⟩)
            (by simpa [identifiers, found] using enough)
          rw [List.append_assoc] at next
          rw [next, writtenFrom, found]
      | some record =>
          obtain ⟨rfl, opens⟩ := TypePiece.identifier_eq_some.mp found
          obtain ⟨first, punctuated⟩ := punctuated
          obtain ⟨rounds, rfl⟩ := Nat.exists_eq_succ_of_ne_zero
            (Nat.ne_of_gt (Nat.zero_lt_of_lt enough))
          rw [identifiers, List.filterMap_cons_some found, List.length_cons,
            Nat.succ_lt_succ_iff] at enough
          have split : lead ++ (passed ++
              (printLlvmName record.typeName ++ printedText rest)) =
                (lead ++ (passed ++ (record.opening ++ (record.idPart ++ record.taken)))) ++
                  (record.leftOver ++ printedText rest) := by
            simp [record.print_parts]
          have next := inductionHypothesis
            (lead ++ (passed ++ (record.opening ++ (record.idPart ++ record.taken))))
            (result ++ (passed ++ (printLlvmName record.typeName ++ printedText rest)).take
              (lead ++ (passed ++ (record.opening ++ record.idPart))).length)
            punctuated record.quiet_leftOver enough
          rw [← split] at next
          have step := sanitizeLoop_found record lead opens quiet (separated_text first)
            rounds result
          have written := step.trans next
          have atName : (lead ++ (passed ++ (record.opening ++ record.idPart))).length =
              lead.length + passed.length +
                (record.opening.length + record.idPart.length) := by
            simp [Nat.add_assoc]
          have behind : (lead ++ (passed ++
              (record.opening ++ (record.idPart ++ record.taken)))).length =
                lead.length + passed.length +
                  (record.opening.length + record.idPart.length) +
                    record.taken.length := by
            simp [Nat.add_assoc]
          rw [atName, behind, List.append_assoc] at written
          rw [writtenFrom, found]
          exact written

end Rounds

section Exactness

/-- The names whose numbers and nothing else are taken out. -/
def RecordName.Sanitizable (record : RecordName) : Prop :=
  if record.name.all isIdChar then record.baseLayout = false else record.numbers = []

instance RecordName.decidableSanitizable (record : RecordName) :
    Decidable record.Sanitizable :=
  inferInstanceAs
    (Decidable (if record.name.all isIdChar then record.baseLayout = false
      else record.numbers = []))

variable (record : RecordName)

theorem RecordName.outside_eq_nil :
    record.outside = [] ↔ record.name.all isIdChar = true := by
  rw [outside, List.dropWhile_eq_nil_iff, List.all_eq_true]

/-- A name without its numbers, in parts. -/
theorem RecordName.withoutNumbers_parts :
    printLlvmName record.withoutNumbers.typeName =
      record.opening ++ (record.idPart ++
        (record.withoutNumbers.taken ++ record.withoutNumbers.leftOver)) :=
  record.withoutNumbers.print_parts

/-- How long the suffix is. -/
theorem RecordName.suffix_length :
    record.suffix.length =
      record.withoutNumbers.suffix.length + (dottedNumbers record.numbers).length := by
  cases layout : record.baseLayout with
  | true =>
      simp only [suffix, withoutNumbers, dottedNumbers, layout, List.length_append]
      rfl
  | false => simp [suffix, withoutNumbers, dottedNumbers, layout]

/-- The parts behind a name are longer than without the numbers, by the numbers. -/
theorem RecordName.parts_length :
    record.taken.length + record.leftOver.length =
      record.withoutNumbers.taken.length + record.withoutNumbers.leftOver.length +
        (dottedNumbers record.numbers).length := by
  have same : record.withoutNumbers.outside = record.outside := rfl
  have closing : record.withoutNumbers.closing = record.closing := rfl
  have suffix := record.suffix_length
  unfold taken leftOver
  rw [same, closing]
  split
  · omega
  · simp only [List.length_append, List.length_nil]
    omega

/-- A part that is taken out is no longer than a mark of a base layout and the numbers. -/
theorem RecordName.taken_length :
    record.taken.length ≤ 5 + (dottedNumbers record.numbers).length := by
  have base : record.withoutNumbers.suffix.length ≤ 5 := by
    unfold RecordName.suffix
    cases layout : record.withoutNumbers.baseLayout <;> simp [withoutNumbers, dottedNumbers]
  have suffix := record.suffix_length
  unfold taken
  split
  · omega
  · exact Nat.zero_le _

variable {names : SanitizedName}

/-- The words are eight characters long. -/
theorem SanitizedName.structStr_length : names.structStr.length = 8 := by
  cases names <;> rfl

/-- Behind an identifier, each further one adds characters. -/
theorem writtenFrom_length (pieces : List TypePiece) (resultPos : Nat) (passed : Text)
    (punctuated : Punctuated pieces) (later : 8 ≤ resultPos) :
    passed.length + (canonicalText names pieces).length +
        (identifiers names pieces).length ≤
      (writtenFrom names resultPos passed pieces).length := by
  induction pieces generalizing resultPos passed with
  | nil => simp [canonicalText, identifiers, writtenFrom]
  | cons piece rest inductionHypothesis =>
      have tail := punctuated.tail
      cases found : piece.identifier names with
      | none =>
          have next := inductionHypothesis resultPos (passed ++ piece.text) tail later
          have canonical : piece.canonical names = piece.text := by
            rw [TypePiece.canonical, found]
          rw [writtenFrom, found]
          simp only [canonicalText, identifiers, List.flatMap_cons, canonical,
            List.filterMap_cons_none found, List.length_append] at next ⊢
          omega
      | some record =>
          obtain ⟨rfl, opens⟩ := TypePiece.identifier_eq_some.mp found
          obtain ⟨⟨c, behind, isRest, _⟩, _⟩ := punctuated
          have some : 0 < (printedText rest).length := by
            rw [isRest]
            exact Nat.succ_pos _
          have next := inductionHypothesis
            (resultPos + passed.length +
              (record.opening.length + record.idPart.length) + record.taken.length)
            record.leftOver tail (by omega)
          have canonical : TypePiece.canonical names (.struct (.record record)) =
              printLlvmName record.withoutNumbers.typeName := by
            rw [TypePiece.canonical, found]
          have text : TypePiece.text (.struct (.record record)) =
              printLlvmName record.typeName := rfl
          have parts := record.parts_length
          have taken := record.taken_length
          rw [writtenFrom, found]
          simp only [canonicalText, identifiers, List.flatMap_cons, canonical, text,
            List.filterMap_cons_some found, List.length_append, List.length_cons,
            List.length_take, record.withoutNumbers_parts, record.print_parts] at next ⊢
          omega

/-- Without identifiers the text is written as it is. -/
theorem writtenFrom_of_none (pieces : List TypePiece) {resultPos : Nat} {passed : Text}
    (nobody : identifiers names pieces = []) :
    writtenFrom names resultPos passed pieces = passed ++ canonicalText names pieces := by
  induction pieces generalizing passed with
  | nil => simp [writtenFrom, canonicalText]
  | cons piece rest inductionHypothesis =>
      cases found : piece.identifier names with
      | none =>
          rw [identifiers, List.filterMap_cons_none found] at nobody
          have canonical : piece.canonical names = piece.text := by
            rw [TypePiece.canonical, found]
          rw [writtenFrom, found]
          dsimp only
          rw [inductionHypothesis nobody, canonicalText, canonicalText, List.flatMap_cons,
            canonical, List.append_assoc]
      | some record =>
          rw [identifiers, List.filterMap_cons_some found] at nobody
          cases nobody

/-- What is written behind an identifier goes on as the text does. -/
theorem writtenFrom_head (pieces : List TypePiece) {resultPos : Nat} {passed : Text}
    (later : 0 < resultPos) :
    (writtenFrom names resultPos passed pieces).head? =
      (passed ++ printedText pieces).head? := by
  induction pieces generalizing passed with
  | nil => simp [writtenFrom, printedText]
  | cons piece rest inductionHypothesis =>
      have text : printedText (piece :: rest) = piece.text ++ printedText rest :=
        List.flatMap_cons
      rw [writtenFrom, text]
      cases found : piece.identifier names with
      | none =>
          dsimp only
          rw [inductionHypothesis, List.append_assoc]
      | some record =>
          obtain ⟨rfl, opens⟩ := TypePiece.identifier_eq_some.mp found
          have first : ∃ c, (passed ++ (printLlvmName record.typeName ++
              printedText rest)).head? = some c := by
            rw [record.print_parts, RecordName.opening]
            cases passed <;> exact ⟨_, rfl⟩
          obtain ⟨c, isFirst⟩ := first
          have text : TypePiece.text (.struct (.record record)) =
              printLlvmName record.typeName := rfl
          dsimp only
          rw [List.head?_append, List.head?_take, if_neg (by omega), text, isFirst]
          rfl

/-- An identifier that can be sanitized leaves what its name without numbers leaves. -/
theorem RecordName.Sanitizable.leftOver_eq (sanitizable : record.Sanitizable) :
    record.withoutNumbers.taken ++ record.withoutNumbers.leftOver = record.leftOver := by
  have same : record.withoutNumbers.outside = record.outside := rfl
  have closing : record.withoutNumbers.closing = record.closing := rfl
  unfold RecordName.taken RecordName.leftOver
  rw [same, closing]
  by_cases bare : record.outside = []
  · rw [RecordName.Sanitizable, if_pos (record.outside_eq_nil.mp bare)] at sanitizable
    rw [if_pos bare, if_pos bare, if_pos bare]
    simp [RecordName.suffix, RecordName.withoutNumbers, sanitizable, dottedNumbers]
  · rw [RecordName.Sanitizable, if_neg (mt record.outside_eq_nil.mpr bare)] at sanitizable
    have suffix : record.withoutNumbers.suffix = record.suffix := by
      rw [RecordName.suffix, RecordName.suffix, sanitizable]
      rfl
    rw [if_neg bare, if_neg bare, if_neg bare, suffix, List.nil_append]

/-- No other identifier is written without its numbers. -/
theorem RecordName.sanitizable_of_written {pieces : List TypePiece} {resultPos : Nat}
    (punctuated : Punctuated pieces) (first : SeparatorFirst pieces)
    (later : 8 ≤ resultPos)
    (written : writtenFrom names resultPos record.leftOver pieces =
      record.withoutNumbers.taken ++ record.withoutNumbers.leftOver ++
        canonicalText names pieces) : record.Sanitizable := by
  unfold Sanitizable
  split
  next bare =>
    have nothing := record.outside_eq_nil.mpr bare
    by_contra layout
    rw [Bool.not_eq_false] at layout
    have dot : (record.withoutNumbers.taken ++ record.withoutNumbers.leftOver ++
        canonicalText names pieces).head? = some '.' := by
      have base : record.withoutNumbers.taken = ".base".toList := by
        rw [taken, if_pos (show record.withoutNumbers.outside = [] from nothing)]
        simp [suffix, withoutNumbers, layout, dottedNumbers]
      rw [base]
      rfl
    rw [← written, writtenFrom_head pieces (by omega)] at dot
    obtain ⟨c, rest, rfl, separator⟩ := first
    rw [leftOver, if_pos nothing] at dot
    rcases head_append dot with quote | ⟨_, other⟩
    · unfold closing at quote
      split at quote <;> cases quote
    · cases Option.some.inj other
      exact absurd separator (by decide)
  next outside =>
    have long : _ ≤ (writtenFrom names resultPos record.leftOver pieces).length :=
      writtenFrom_length pieces resultPos record.leftOver punctuated later
    have parts := record.parts_length
    have bare := mt record.outside_eq_nil.mp outside
    have none : record.taken = [] := if_neg bare
    have noneLeft : record.withoutNumbers.taken = [] := if_neg bare
    rw [written, noneLeft, List.nil_append, List.length_append] at long
    rw [none, noneLeft, List.length_nil] at parts
    have nobody : (dottedNumbers record.numbers).length = 0 := by omega
    cases numbers : record.numbers with
    | nil => rfl
    | cons number rest =>
        rw [numbers] at nobody
        simp [dottedNumbers] at nobody

/--
The loop writes the text without the numbers exactly when there is at most one
identifier, and it is one that can be sanitized.
-/
theorem writtenFrom_iff (pieces : List TypePiece) (passed : Text)
    (punctuated : Punctuated pieces) :
    writtenFrom names 0 passed pieces = passed ++ canonicalText names pieces ↔
      (∀ record ∈ identifiers names pieces, record.Sanitizable) ∧
        (identifiers names pieces).length ≤ 1 := by
  induction pieces generalizing passed with
  | nil => simp [writtenFrom, canonicalText, identifiers]
  | cons piece rest inductionHypothesis =>
      have tail := punctuated.tail
      cases found : piece.identifier names with
      | none =>
          have canonical : piece.canonical names = piece.text := by
            rw [TypePiece.canonical, found]
          have next := inductionHypothesis (passed ++ piece.text) tail
          rw [List.append_assoc] at next
          rw [writtenFrom, found, identifiers, List.filterMap_cons_none found, canonicalText,
            List.flatMap_cons, canonical]
          exact next
      | some record =>
          obtain ⟨rfl, opens⟩ := TypePiece.identifier_eq_some.mp found
          have first : SeparatorFirst rest := punctuated.1
          have canonical : canonicalText names (.struct (.record record) :: rest) =
              record.opening ++ (record.idPart ++
                (record.withoutNumbers.taken ++ record.withoutNumbers.leftOver ++
                  canonicalText names rest)) := by
            rw [canonicalText, List.flatMap_cons, TypePiece.canonical, found]
            dsimp only
            rw [record.withoutNumbers_parts]
            simp [canonicalText]
          have long : 8 ≤ 0 + passed.length +
              (record.opening.length + record.idPart.length) + record.taken.length := by
            rw [opens, names.structStr_length]
            omega
          have slice : (passed ++ (printLlvmName record.typeName ++ printedText rest)).take
              (0 + passed.length + (record.opening.length + record.idPart.length)) =
                passed ++ (record.opening ++ record.idPart) := by
            rw [record.print_parts]
            have whole : passed ++ ((record.opening ++ (record.idPart ++
                (record.taken ++ record.leftOver))) ++ printedText rest) =
                  (passed ++ (record.opening ++ record.idPart)) ++
                    (record.taken ++ (record.leftOver ++ printedText rest)) := by
              simp
            rw [whole]
            apply List.take_left'
            simp
          have written : writtenFrom names 0 passed (.struct (.record record) :: rest) =
              passed ++ canonicalText names (.struct (.record record) :: rest) ↔
                writtenFrom names (0 + passed.length +
                    (record.opening.length + record.idPart.length) + record.taken.length)
                  record.leftOver rest =
                    record.withoutNumbers.taken ++ record.withoutNumbers.leftOver ++
                      canonicalText names rest := by
            have text : TypePiece.text (.struct (.record record)) =
                printLlvmName record.typeName := rfl
            rw [writtenFrom, found]
            dsimp only
            rw [text, slice, canonical]
            simp
          have single : (identifiers names rest).length + 1 ≤ 1 ↔
              identifiers names rest = [] := by
            rw [← List.length_eq_zero_iff]
            omega
          have listed : identifiers names (.struct (.record record) :: rest) =
              record :: identifiers names rest :=
            List.filterMap_cons_some found
          rw [written, listed, List.length_cons, single, List.forall_mem_cons]
          constructor
          · intro same
            have sanitizable := record.sanitizable_of_written tail first long same
            have adds : _ ≤ (writtenFrom names _ record.leftOver rest).length :=
              writtenFrom_length rest _ record.leftOver tail long
            rw [same, sanitizable.leftOver_eq, List.length_append] at adds
            have nobody : (identifiers names rest).length = 0 := by omega
            have none := List.length_eq_zero_iff.mp nobody
            refine ⟨⟨sanitizable, ?_⟩, none⟩
            intro other listed
            rw [none] at listed
            cases listed
          · rintro ⟨⟨sanitizable, _⟩, none⟩
            rw [writtenFrom_of_none rest none, sanitizable.leftOver_eq]

/-- There are no more identifiers than characters. -/
theorem identifiers_length (pieces : List TypePiece) :
    (identifiers names pieces).length ≤ (printedText pieces).length := by
  have nonempty : ∀ piece : TypePiece, 0 < piece.text.length := by
    intro piece
    rcases piece with c | (record | address)
    · exact Nat.succ_pos _
    · change 0 < (printLlvmName record.typeName).length
      rw [record.print_parts, RecordName.opening]
      exact Nat.succ_pos _
    · exact Nat.succ_pos _
  have characters : pieces.length ≤ (printedText pieces).length := by
    induction pieces with
    | nil => exact Nat.le_refl _
    | cons piece rest inductionHypothesis =>
        have here := nonempty piece
        rw [printedText, List.flatMap_cons, List.length_append, List.length_cons]
        rw [printedText] at inductionHypothesis
        omega
  exact Nat.le_trans (List.length_filterMap_le _ _) characters

/-- What is sanitized exactly: at most one identifier, of the right form. -/
def SanitizedExactly (names : SanitizedName) (pieces : List TypePiece) : Prop :=
  (∀ record ∈ identifiers names pieces, record.Sanitizable) ∧
    (identifiers names pieces).length ≤ 1

/-- A punctuated text loses the numbers and nothing else exactly then. -/
theorem sanitizeTypeStr_iff {pieces : List TypePiece} (punctuated : Punctuated pieces) :
    sanitizeTypeStr (printedText pieces) names.structStr =
        some (canonicalText names pieces) ↔
      SanitizedExactly names pieces := by
  have written : sanitizeTypeStr (printedText pieces) names.structStr =
      some (writtenFrom names 0 [] pieces) :=
    sanitizeLoop_eq pieces [] [] punctuated
      (show Quiet names.structStr [] (printedText pieces) from trivial)
      (Nat.lt_succ_of_le (identifiers_length pieces))
  rw [written, Option.some.injEq]
  exact writtenFrom_iff pieces [] punctuated

/--
`SanitizeTypeStr` takes the numbers out of the identifiers of a printed type, and
keeps every other character once and in order, exactly when the type has at most one
identifier; that one has no mark of a base layout behind a name of letters, digits,
underscores and colons, and no numbers behind another name.
-/
theorem type_strings_canonical_iff (type : PrintedType) (names : SanitizedName) :
    sanitizeTypeStr (printedText type.print) names.structStr =
        some (canonicalText names type.print) ↔
      (∀ record ∈ identifiers names type.print, record.Sanitizable) ∧
        (identifiers names type.print).length ≤ 1 :=
  sanitizeTypeStr_iff type.punctuated

/-- A pointer to a struct of the program. -/
def namedStruct (name : Text) (percents : percentsQuoted name = true)
    (dots : (name.dropWhile isIdChar).head? ≠ some '.') : LlvmType :=
  .pointer (.named (.record
    { kind := .ttkStruct, name, baseLayout := false, numbers := [], percents, dots })) 0

/-- The type of a function that takes pointers to two structs. -/
def twoStructs : PrintedType :=
  .type (.function (.primitive .void)
    [namedStruct ['a'] (by decide) (by decide), namedStruct ['b'] (by decide) (by decide)]
    false) rfl

/-- A type without numbers that is not mapped to itself. -/
theorem two_identifiers_copied :
    printedText twoStructs.print = "void (%struct.a*, %struct.b*)".toList ∧
      canonicalText .struct twoStructs.print = printedText twoStructs.print ∧
      sanitizeTypeStr (printedText twoStructs.print) "%struct.".toList =
        some "void (%struct.a*, %struct.b*)*)".toList ∧
      sanitizeTypeStr (printedText twoStructs.print) "%struct.".toList ≠
        some (canonicalText .struct twoStructs.print) := by
  refine ⟨?_, ?_, ?_, ?_⟩ <;> decide

end Exactness

section TwoPasses

/-- A piece whose identifier has lost its numbers. -/
def TypePiece.dropNumbers (names : SanitizedName) (piece : TypePiece) : TypePiece :=
  match piece.identifier names with
  | some record => .struct (.record record.withoutNumbers)
  | none => piece

variable (names : SanitizedName)

theorem canonicalText_eq (pieces : List TypePiece) :
    canonicalText names pieces =
      printedText (pieces.map (TypePiece.dropNumbers names)) := by
  have each : ∀ piece : TypePiece,
      piece.canonical names = (piece.dropNumbers names).text := by
    intro piece
    unfold TypePiece.canonical TypePiece.dropNumbers
    split <;> rfl
  rw [canonicalText, printedText, List.flatMap_map]
  exact congrFun (congrArg List.flatMap (funext each)) pieces

/-- A type without its numbers is punctuated as before. -/
theorem Punctuated.dropNumbers {pieces : List TypePiece} (punctuated : Punctuated pieces) :
    Punctuated (pieces.map (TypePiece.dropNumbers names)) := by
  induction pieces with
  | nil => trivial
  | cons piece rest inductionHypothesis =>
      have later := inductionHypothesis punctuated.tail
      cases piece with
      | char c => exact ⟨punctuated.1, later⟩
      | struct reference =>
          have first : SeparatorFirst (rest.map (TypePiece.dropNumbers names)) := by
            obtain ⟨c, behind, rfl, separator⟩ := punctuated.1
            exact ⟨c, behind.map (TypePiece.dropNumbers names), rfl, separator⟩
          rw [List.map_cons, TypePiece.dropNumbers]
          split
          · exact ⟨first, later⟩
          · exact ⟨first, later⟩

/-- The identifiers of the second pass are not touched by the first. -/
theorem identifiers_dropNumbers (pieces : List TypePiece) :
    identifiers .quotedClass (pieces.map (TypePiece.dropNumbers .struct)) =
      identifiers .quotedClass pieces := by
  have each : ∀ piece : TypePiece, (piece.dropNumbers .struct).identifier .quotedClass =
      piece.identifier .quotedClass := by
    intro piece
    unfold TypePiece.dropNumbers
    cases found : piece.identifier .struct with
    | none => rfl
    | some record =>
        obtain ⟨rfl, opens⟩ := TypePiece.identifier_eq_some.mp found
        have none : ∀ other : RecordName, other.opening = record.opening →
            TypePiece.identifier .quotedClass (.struct (.record other)) = none := by
          intro other same
          cases again : TypePiece.identifier .quotedClass (.struct (.record other)) with
          | none => rfl
          | some third =>
              obtain ⟨isThird, class'⟩ := TypePiece.identifier_eq_some.mp again
              cases isThird
              rw [same, opens] at class'
              exact absurd class' (by decide)
        exact (none record.withoutNumbers rfl).trans (none record rfl).symm
  rw [identifiers, List.filterMap_map]
  exact congrFun (congrArg List.filterMap (funext each)) pieces

/-- Where both passes are exact, `TypeStr` maps a type to its text without numbers. -/
theorem typeStr_eq (type : PrintedType) (structs : SanitizedExactly .struct type.print)
    (classes : SanitizedExactly .quotedClass type.print) :
    typeStr (printedText type.print) =
      some (printedText ((type.print.map (TypePiece.dropNumbers .struct)).map
        (TypePiece.dropNumbers .quotedClass))) := by
  have first := (sanitizeTypeStr_iff type.punctuated).mpr structs
  have second : sanitizeTypeStr _ SanitizedName.quotedClass.structStr = _ :=
    (sanitizeTypeStr_iff (type.punctuated.dropNumbers .struct)).mpr (by
      rw [SanitizedExactly, identifiers_dropNumbers]
      exact classes)
  rw [canonicalText_eq] at first second
  exact Option.bind_eq_some_iff.mpr ⟨_, first, second⟩

/-- Two types that differ in the numbers only have one type string then. -/
theorem typeStr_same {type other : PrintedType}
    (structs : SanitizedExactly .struct type.print)
    (classes : SanitizedExactly .quotedClass type.print)
    (otherStructs : SanitizedExactly .struct other.print)
    (otherClasses : SanitizedExactly .quotedClass other.print)
    (same : (type.print.map (TypePiece.dropNumbers .struct)).map
        (TypePiece.dropNumbers .quotedClass) =
      (other.print.map (TypePiece.dropNumbers .struct)).map
        (TypePiece.dropNumbers .quotedClass)) :
    typeStr (printedText type.print) = typeStr (printedText other.print) := by
  rw [typeStr_eq type structs classes, typeStr_eq other otherStructs otherClasses, same]

end TwoPasses

end Mcfi
