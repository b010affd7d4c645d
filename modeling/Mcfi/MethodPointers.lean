import Mathlib.Data.List.Induction
import Mcfi.FunctionSections
import Mcfi.Lib.Searches
import Mcfi.MethodNames

namespace Mcfi

open Searches

/-!
# Calls through pointers to methods

The front end knows the prototype of the method a pointer points to.  It writes the
qualifiers of the method into the record of the call, and to find them prints the
prototype and looks for the words `const` and `volatile` behind the last closing
parenthesis.  In the syntax of C++ declarators, what closes the last parenthesis need
not be the parameter list of the method.
-/

section Prototypes

/-- The `const`, `volatile` and `restrict` qualifiers. -/
structure CvrQuals where
  isConst : Bool
  isVolatile : Bool
  isRestrict : Bool
  deriving DecidableEq, Repr

/-- `RefQualifierKind`. -/
inductive RefQualifier where
  | none
  | lValue
  | rValue
  deriving DecidableEq, Repr

/-- `CallingConv`, in the order of the printer. -/
inductive CallingConv where
  | c | x86StdCall | x86FastCall | x86ThisCall | x86Pascal | aapcs | aapcsVfp | pnaclCall
  | intelOclBicc | x8664Win64 | x8664SysV
  deriving DecidableEq, Repr

/-- `FunctionType::ExtInfo`, as far as it is printed. -/
structure ExtInfo where
  cc : CallingConv
  noReturn : Bool
  regParm : Nat

mutual

/--
C++ types, as they are written: a type that is printed in front of the declarator, a
pointer, reference or pointer to member with what is written for it, an array, and a
type in parentheses or of a function.
-/
inductive CxxType where
  | specifier (text : Text)
  | pointer (sigil : Text) (quals : CvrQuals) (pointee : CxxType)
  | array (size : Option Nat) (element : CxxType)
  | paren (inner : CxxType)
  | function (proto : FunctionProto)

/-- Exception specifications. -/
inductive ExceptionSpec where
  | none
  | dynamic (types : List CxxType)
  | msAny
  | basicNoexcept
  | computedNoexcept (expr : Text)

/-- `FunctionProtoType`. -/
inductive FunctionProto where
  | mk (returnType : CxxType) (hasTrailingReturn : Bool) (params : List CxxType)
      (isVariadic : Bool) (info : ExtInfo) (typeQuals : CvrQuals)
      (refQualifier : RefQualifier) (exceptions : ExceptionSpec)

end

/-- `getTypeQuals`. -/
def FunctionProto.typeQuals : FunctionProto → CvrQuals
  | mk _ _ _ _ _ quals _ _ => quals

/-- `isa<ArrayType>`. -/
def CxxType.isArray : CxxType → Bool
  | .array _ _ => true
  | _ => false

/-- `isa<FunctionType>`. -/
def CxxType.isFunction : CxxType → Bool
  | .function _ => true
  | _ => false

end Prototypes

section Printing

/-- `AppendTypeQualList`. -/
def appendTypeQualList (quals : CvrQuals) : Text :=
  [' '].intercalate
    ((if quals.isConst then ["const".toList] else []) ++
      ((if quals.isVolatile then ["volatile".toList] else []) ++
        (if quals.isRestrict then ["restrict".toList] else [])))

/-- `Qualifiers::print` behind a pointer. -/
def printQualifiers (quals : CvrQuals) (appendSpaceIfNonEmpty : Bool) : Text :=
  let text := appendTypeQualList quals
  if text = [] then [] else text ++ (if appendSpaceIfNonEmpty then [' '] else [])

/-- The attribute of a calling convention. -/
def CallingConv.attribute : CallingConv → Option Text
  | .c => none
  | .x86StdCall => some "stdcall".toList
  | .x86FastCall => some "fastcall".toList
  | .x86ThisCall => some "thiscall".toList
  | .x86Pascal => some "pascal".toList
  | .aapcs => some "pcs(\"aapcs\")".toList
  | .aapcsVfp => some "pcs(\"aapcs-vfp\")".toList
  | .pnaclCall => some "pnaclcall".toList
  | .intelOclBicc => some "intel_ocl_bicc".toList
  | .x8664Win64 => some "ms_abi".toList
  | .x8664SysV => some "sysv_abi".toList

/-- What is written for an attribute. -/
def attributeText (name : Text) : Text :=
  " __attribute__((".toList ++ (name ++ [')', ')'])

/-- The attributes of a function. -/
def ExtInfo.text (info : ExtInfo) : Text :=
  info.cc.attribute.elim [] attributeText ++
    ((if info.noReturn then attributeText "noreturn".toList else []) ++
      (if info.regParm = 0 then []
        else attributeText ("regparm (".toList ++ (Nat.toDigits 10 info.regParm ++ [')']))))

/-- What is written for a reference qualifier. -/
def RefQualifier.text : RefQualifier → Text
  | .none => []
  | .lValue => " &".toList
  | .rValue => " &&".toList

/-- The qualifiers of a method. -/
def methodQualifiers (quals : CvrQuals) (ref : RefQualifier) : Text :=
  (if appendTypeQualList quals = [] then [] else ' ' :: appendTypeQualList quals) ++ ref.text

/-- What is written behind the parameters, in front of the parenthesis. -/
def endOfParams (noParams isVariadic : Bool) : Text :=
  if isVariadic then
    (if noParams then "...".toList else ", ...".toList)
  else
    -- the default language options are those of C
    (if noParams then "void".toList else [])

/-- A trailing return type. -/
def trailingReturn (text : Text) : Text :=
  " -> ".toList ++ text

/-- A specification of the exceptions of these types. -/
def dynamicSpec (types : Text) : Text :=
  " throw(".toList ++ (types ++ [')'])

/-- A computed `noexcept`. -/
def computedSpec (expr : Text) : Text :=
  " noexcept(".toList ++ (expr ++ [')'])

/-- A plain `noexcept`. -/
def noexceptSpec : Text :=
  " noexcept".toList

/-- What stands for a return type that is written behind. -/
def autoText : Text :=
  "auto ".toList

/-- A type behind another. -/
def nextType (text : Text) : Text :=
  ", ".toList ++ text

mutual

/-- `printBefore`; the argument is `HasEmptyPlaceHolder`. -/
def CxxType.before (emptyPlaceHolder : Bool) : CxxType → Text
  | .specifier text => text ++ (if emptyPlaceHolder then [] else [' '])
  | .pointer sigil quals pointee =>
      pointee.before false ++ ((if pointee.isArray then ['('] else []) ++
        (sigil ++ printQualifiers quals (!emptyPlaceHolder)))
  | .array _ element => element.before false
  | .paren inner =>
      inner.before emptyPlaceHolder ++
        (if !emptyPlaceHolder && !inner.isFunction then ['('] else [])
  | .function proto => proto.before emptyPlaceHolder

/-- `printFunctionProtoBefore`. -/
def FunctionProto.before (emptyPlaceHolder : Bool) : FunctionProto → Text
  | .mk returnType hasTrailingReturn _ _ _ _ _ _ =>
      (if hasTrailingReturn then autoText else returnType.before false) ++
        (if emptyPlaceHolder then [] else ['('])

/-- `printAfter`. -/
def CxxType.after (emptyPlaceHolder : Bool) : CxxType → Text
  | .specifier _ => []
  | .pointer _ _ pointee => (if pointee.isArray then [')'] else []) ++ pointee.after false
  | .array size element =>
      '[' :: (size.elim [] (Nat.toDigits 10) ++ ']' :: element.after emptyPlaceHolder)
  | .paren inner =>
      (if !emptyPlaceHolder && !inner.isFunction then [')'] else []) ++
        inner.after emptyPlaceHolder
  | .function proto => proto.after emptyPlaceHolder

/-- `printFunctionProtoAfter`. -/
def FunctionProto.after (emptyPlaceHolder : Bool) : FunctionProto → Text
  | .mk returnType hasTrailingReturn params isVariadic info typeQuals refQualifier
      exceptions =>
      (if emptyPlaceHolder then [] else [')']) ++ '(' ::
        (printTypeList params ++ (endOfParams params.isEmpty isVariadic ++ ')' ::
          (info.text ++ (methodQualifiers typeQuals refQualifier ++
            (exceptions.print ++
              (if hasTrailingReturn then
                trailingReturn (returnType.before true ++ returnType.after true)
              else
                returnType.after false))))))

/-- `printExceptionSpecification`. -/
def ExceptionSpec.print : ExceptionSpec → Text
  | .none => []
  | .dynamic types => dynamicSpec (printTypeList types)
  | .msAny => dynamicSpec ['.', '.', '.']
  | .basicNoexcept => noexceptSpec
  | .computedNoexcept expr => computedSpec expr

/-- Types with commas between them. -/
def printTypeList : List CxxType → Text
  | [] => []
  | type :: rest => type.before true ++ (type.after true ++ printTypeListRest rest)

/-- Types with a comma in front of each. -/
def printTypeListRest : List CxxType → Text
  | [] => []
  | type :: rest =>
      nextType (type.before true ++ (type.after true ++ printTypeListRest rest))

end

/-- `print` without a name. -/
def CxxType.print (type : CxxType) : Text :=
  type.before true ++ type.after true

/-- `getAsString` of a prototype. -/
def FunctionProto.getAsString (proto : FunctionProto) : Text :=
  proto.before true ++ proto.after true

end Printing

section Search

/-- The loop that looks backward for a `)`, from an index down. -/
def cutQualifiers.loop (qualifiers : Text) : Nat → Text
  | 0 => qualifiers
  | i + 1 =>
      if qualifiers[i + 1]? = some ')' then
        if i + 1 < qualifiers.length - 1 then
          substr qualifiers (i + 2) (qualifiers.length - (i + 1))
        else
          []
      else
        cutQualifiers.loop qualifiers i

/-- What `EmitCXXMemberPointerCallExpr` searches for the qualifiers. -/
def cutQualifiers (qualifiers : Text) : Text :=
  cutQualifiers.loop qualifiers (qualifiers.length - 1)

/-- Whether a method is qualified. -/
structure MethodQuals where
  isConst : Bool
  isVolatile : Bool
  deriving DecidableEq, Repr

/-- The qualifiers of a prototype. -/
def FunctionProto.methodQuals (proto : FunctionProto) : MethodQuals where
  isConst := proto.typeQuals.isConst
  isVolatile := proto.typeQuals.isVolatile

/-- The qualifiers whose words are in a text. -/
def mentions (text : Text) : MethodQuals where
  isConst := contains "const".toList text
  isVolatile := contains "volatile".toList text

/-- The qualifiers that `EmitCXXMemberPointerCallExpr` writes. -/
def qualifierField (proto : FunctionProto) : Text :=
  let quals := mentions (cutQualifiers proto.getAsString)
  (if quals.isConst then ['c'] else []) ++ (if quals.isVolatile then ['o'] else [])

/-- `EmitCXXMemberPointerCallExpr`: the record of the call. -/
def emitCxxMemberPointerCallExpr (proto : FunctionProto) (className type : Printed) :
    IndirectCall :=
  let quals := mentions (cutQualifiers proto.getAsString)
  .methodPointer className quals.isConst quals.isVolatile type

end Search

section LastParenthesis

/-- No qualifiers. -/
def MethodQuals.unqualified : MethodQuals where
  isConst := false
  isVolatile := false

/-- The qualifiers of either. -/
def MethodQuals.or (first second : MethodQuals) : MethodQuals where
  isConst := first.isConst || second.isConst
  isVolatile := first.isVolatile || second.isVolatile

/-- The exception specifications that are written in parentheses. -/
def ExceptionSpec.isParenthesized : ExceptionSpec → Bool
  | .none => false
  | .basicNoexcept => false
  | _ => true

mutual

/--
The qualifiers behind the last parenthesis that a return type closes behind the
declarator, if it closes one: those at the end of a function it points to, and none
behind an array or a pair of parentheses.
-/
def CxxType.closing : CxxType → Option MethodQuals
  | .specifier _ => none
  | .pointer _ _ pointee =>
      match pointee.closing with
      | some quals => some quals
      | none => if pointee.isArray then some MethodQuals.unqualified else none
  | .array _ element => element.closing
  | .paren inner =>
      match inner.closing with
      | some quals => some quals
      | none => if inner.isFunction then none else some MethodQuals.unqualified
  | .function proto => some proto.atEnd

/--
The qualifiers behind the last parenthesis of a prototype: those of the return type,
if that closes a parenthesis, and else its own, if its exception specification does not
close one.  A trailing return type is written there whole.
-/
def FunctionProto.atEnd : FunctionProto → MethodQuals
  | .mk returnType hasTrailingReturn _ _ _ typeQuals _ exceptions =>
      let own :=
        if exceptions.isParenthesized then
          MethodQuals.unqualified
        else
          { isConst := typeQuals.isConst, isVolatile := typeQuals.isVolatile }
      if hasTrailingReturn then
        match behindLast ')' (returnType.before true ++ returnType.after true) with
        | some text => mentions text
        | none => own.or (mentions (returnType.before true ++ returnType.after true))
      else
        match returnType.closing with
        | some quals => quals
        | none => own

end

/-- The prototypes whose own qualifiers are behind the last parenthesis. -/
def FunctionProto.Legible (proto : FunctionProto) : Prop :=
  proto.atEnd = proto.methodQuals

end LastParenthesis

section Words

variable {word text behind : Text}

/-- A word without a separator is in one of two texts around it. -/
theorem contains_separated {separator : Char} (clean : separator ∉ word) :
    contains word (text ++ separator :: behind) =
      (contains word text || contains word behind) := by
  rw [Bool.eq_iff_iff, Bool.or_eq_true, contains_iff, contains_iff, contains_iff]
  exact infix_append_cons clean

/-- A separator of the words for qualifiers. -/
def IsSeparator (c : Char) : Prop :=
  c ∉ "const".toList ∧ c ∉ "volatile".toList

theorem mentions_separated {separator : Char} (clean : IsSeparator separator) :
    mentions (text ++ separator :: behind) = (mentions text).or (mentions behind) := by
  rw [mentions, contains_separated clean.1, contains_separated clean.2]
  rfl

/-- A text that lacks a letter of each of the words. -/
theorem mentions_of_lacks (noC : 'c' ∉ text) (noV : 'v' ∉ text) :
    mentions text = MethodQuals.unqualified := by
  have noConst : contains "const".toList text = false := by
    rw [Bool.eq_false_iff, Ne, contains_iff]
    exact not_infix_of_not_mem (by decide) noC
  have noVolatile : contains "volatile".toList text = false := by
    rw [Bool.eq_false_iff, Ne, contains_iff]
    exact not_infix_of_not_mem (by decide) noV
  rw [mentions, noConst, noVolatile]
  rfl

theorem MethodQuals.or_unqualified (quals : MethodQuals) : quals.or MethodQuals.unqualified = quals := by
  cases quals
  simp [MethodQuals.or, MethodQuals.unqualified]

theorem MethodQuals.unqualified_or (quals : MethodQuals) : MethodQuals.unqualified.or quals = quals := by
  cases quals
  simp [MethodQuals.or, MethodQuals.unqualified]

/-- What a return type without parentheses writes behind the declarator. -/
structure OnlyBrackets (text : Text) : Prop where
  opens : text = [] ∨ ∃ rest, text = '[' :: rest
  noC : 'c' ∉ text
  noV : 'v' ∉ text

/-- Brackets do not change what a text in front of them mentions. -/
theorem mentions_append_brackets (brackets : OnlyBrackets behind) :
    mentions (text ++ behind) = mentions text := by
  rcases brackets.opens with rfl | ⟨rest, rfl⟩
  · rw [List.append_nil]
  · have lacks : mentions rest = MethodQuals.unqualified :=
      mentions_of_lacks (fun listed => brackets.noC (List.mem_cons_of_mem _ listed))
        (fun listed => brackets.noV (List.mem_cons_of_mem _ listed))
    rw [mentions_separated (by decide : '[' ∉ _ ∧ '[' ∉ _), lacks, MethodQuals.or_unqualified]

end Words

section Closing

/-- What a parenthesis closes last is found behind anything. -/
private theorem behindLast_closed (front : Text) {closed behind : Text}
    (atEnd : ∃ inside, closed = inside ++ [')']) (clean : ')' ∉ behind) :
    behindLast ')' (front ++ (closed ++ behind)) = some behind := by
  obtain ⟨inside, rfl⟩ := atEnd
  rw [← List.append_assoc, behindLast_append_of_not_mem clean, ← List.append_assoc,
    behindLast_concat]
  rfl

/-- A text that ends with a parenthesis, if it is not empty. -/
private def Closes (text : Text) : Prop :=
  text = [] ∨ ∃ inside, text = inside ++ [')']

private theorem Closes.append {text behind : Text} (closes : Closes text)
    (later : Closes behind) : Closes (text ++ behind) := by
  rcases later with rfl | ⟨inside, rfl⟩
  · rwa [List.append_nil]
  · exact Or.inr ⟨text ++ inside, (List.append_assoc _ _ _).symm⟩

private theorem closed_words (words text : Text) :
    ∃ inside, words ++ (text ++ [')']) = inside ++ [')'] :=
  ⟨words ++ text, by simp⟩

private theorem attributeText_closes (name : Text) : Closes (attributeText name) := by
  have twice : name ++ [')', ')'] = (name ++ [')']) ++ [')'] := by simp
  unfold attributeText
  rw [twice]
  exact Or.inr (closed_words _ _)

/-- So do the attributes of a function. -/
private theorem ExtInfo.text_closes (info : ExtInfo) : Closes info.text := by
  unfold ExtInfo.text
  apply Closes.append
  · cases info.cc.attribute with
    | none => exact Or.inl rfl
    | some name => exact attributeText_closes name
  · apply Closes.append
    · split
      · exact attributeText_closes _
      · exact Or.inl rfl
    · split
      · exact Or.inl rfl
      · exact attributeText_closes _

/-- An exception specification in parentheses. -/
private theorem ExceptionSpec.print_closes {exceptions : ExceptionSpec}
    (parenthesized : exceptions.isParenthesized = true) :
    ∃ inside, exceptions.print = inside ++ [')'] := by
  cases exceptions with
  | none => cases parenthesized
  | basicNoexcept => cases parenthesized
  | dynamic types =>
      rw [ExceptionSpec.print]
      unfold dynamicSpec
      exact closed_words _ _
  | msAny =>
      rw [ExceptionSpec.print]
      unfold dynamicSpec
      exact closed_words _ _
  | computedNoexcept expr =>
      rw [ExceptionSpec.print]
      unfold computedSpec
      exact closed_words _ _

/-- The qualifiers and another exception specification. -/
private theorem methodQualifiers_facts (quals : CvrQuals) (ref : RefQualifier)
    {exceptions : ExceptionSpec} (bare : exceptions.isParenthesized = false) :
    ')' ∉ methodQualifiers quals ref ++ exceptions.print ∧
      mentions (methodQualifiers quals ref ++ exceptions.print) =
        { isConst := quals.isConst, isVolatile := quals.isVolatile } := by
  have facts : ∀ text ∈ [[], noexceptSpec],
      ')' ∉ methodQualifiers quals ref ++ text ∧
        mentions (methodQualifiers quals ref ++ text) =
          { isConst := quals.isConst, isVolatile := quals.isVolatile } := by
    obtain ⟨isConst, isVolatile, isRestrict⟩ := quals
    cases isConst <;> cases isVolatile <;> cases isRestrict <;> cases ref <;> decide
  cases exceptions with
  | none =>
      rw [ExceptionSpec.print]
      exact facts _ List.mem_cons_self
  | basicNoexcept =>
      rw [ExceptionSpec.print]
      exact facts _ (List.mem_cons_of_mem _ List.mem_cons_self)
  | dynamic types => cases bare
  | msAny => cases bare
  | computedNoexcept expr => cases bare

/-- What a text shows behind its last parenthesis; without one it is brackets only. -/
def Shows (text : Text) : Option MethodQuals → Prop
  | some quals => ∃ behind, behindLast ')' text = some behind ∧ mentions behind = quals
  | none => ')' ∉ text ∧ OnlyBrackets text

/-- A text in front changes nothing behind a parenthesis. -/
private theorem Shows.append {text : Text} {quals : MethodQuals}
    (shows' : Shows text (some quals)) (front : Text) :
    Shows (front ++ text) (some quals) := by
  obtain ⟨behind, found, mentioned⟩ := shows'
  exact ⟨behind, behindLast_append_of_some found, mentioned⟩

/-- Behind a pair of parentheses there are brackets only. -/
private theorem Shows.paren {text : Text} (shows' : Shows text none) :
    Shows ([')'] ++ text) (some MethodQuals.unqualified) :=
  ⟨text, behindLast_closed [] ⟨[], rfl⟩ shows'.1,
    mentions_of_lacks shows'.2.noC shows'.2.noV⟩

/-- A size is written in digits. -/
private theorem size_char {size : Option Nat} {c : Char}
    (listed : c ∈ size.elim [] (Nat.toDigits 10)) : c.isDigit = true := by
  cases size with
  | none => cases listed
  | some number =>
      exact Nat.isDigit_of_mem_toDigits (by decide) (by decide) listed

/--
What closes the last parenthesis of a prototype: the return type, the parameter list
or the attributes, or the exception specification.
-/
inductive ClosedLast (typeQuals : CvrQuals) (ref : RefQualifier)
    (exceptions : ExceptionSpec) (returned : Text) (quals : MethodQuals) : Prop where
  | returned (shown : Shows returned (some quals))
  | params (clean : ')' ∉ returned)
      (mentioned :
        mentions (methodQualifiers typeQuals ref ++ exceptions.print ++ returned) = quals)
      (bare : exceptions.isParenthesized = false)
  | exceptions (clean : ')' ∉ returned) (mentioned : mentions returned = quals)
      (parenthesized : exceptions.isParenthesized = true)

/-- A prototype shows what is behind the parenthesis that is closed last. -/
private theorem prototype_shows (front : Text) (info : ExtInfo) {typeQuals : CvrQuals}
    {ref : RefQualifier} {exceptions : ExceptionSpec} {returned : Text}
    {quals : MethodQuals}
    (last : ClosedLast typeQuals ref exceptions returned quals) :
    Shows (front ++ (')' :: (info.text ++ (methodQualifiers typeQuals ref ++
      (exceptions.print ++ returned))))) (some quals) := by
  rcases last with shown | ⟨clean, mentioned, bare⟩ | ⟨clean, mentioned, parenthesized⟩
  · exact ((((shown.append exceptions.print).append
      (methodQualifiers typeQuals ref)).append info.text).append [')']).append front
  · have closed : ∃ inside, ')' :: info.text = inside ++ [')'] := by
      rcases info.text_closes with none | ⟨inside, isText⟩
      · exact ⟨[], by rw [none]; rfl⟩
      · exact ⟨')' :: inside, by rw [isText]; rfl⟩
    have noParen := (methodQualifiers_facts typeQuals ref bare).1
    have found := behindLast_closed front closed
      (show ')' ∉ methodQualifiers typeQuals ref ++ exceptions.print ++ returned by
        rw [List.mem_append, not_or]
        exact ⟨noParen, clean⟩)
    refine ⟨_, ?_, mentioned⟩
    simpa using found
  · have found := behindLast_closed
      (front ++ (')' :: (info.text ++ methodQualifiers typeQuals ref)))
      (ExceptionSpec.print_closes parenthesized) clean
    refine ⟨_, ?_, mentioned⟩
    simpa using found

/-- A trailing return type is a text with separators in front. -/
private theorem trailingReturn_eq (text : Text) :
    trailingReturn text = ' ' :: '-' :: '>' :: ' ' :: text := by
  have words : " -> ".toList = [' ', '-', '>', ' '] := by decide
  unfold trailingReturn
  rw [words]
  rfl

/-- What is mentioned in front of a trailing return type and in it. -/
private theorem mentions_trailing (front text : Text) :
    mentions (front ++ trailingReturn text) = (mentions front).or (mentions text) := by
  have nothing : mentions [] = MethodQuals.unqualified :=
    mentions_of_lacks List.not_mem_nil List.not_mem_nil
  have skip : ∀ {c : Char} (text : Text), IsSeparator c →
      mentions (c :: text) = mentions text := by
    intro c text separator
    have split : mentions ([] ++ c :: text) = _ := mentions_separated separator
    rwa [nothing, MethodQuals.unqualified_or] at split
  rw [trailingReturn_eq, mentions_separated (by decide : ' ' ∉ _ ∧ ' ' ∉ _),
    skip _ (by decide : '-' ∉ _ ∧ '-' ∉ _), skip _ (by decide : '>' ∉ _ ∧ '>' ∉ _),
    skip _ (by decide : ' ' ∉ _ ∧ ' ' ∉ _)]

mutual

/-- What a type writes behind the declarator shows what `closing` says. -/
theorem CxxType.closing_shows : (type : CxxType) → Shows (type.after false) type.closing
  | .specifier text => by
      unfold CxxType.after CxxType.closing
      exact ⟨List.not_mem_nil, Or.inl rfl, List.not_mem_nil, List.not_mem_nil⟩
  | .pointer sigil quals pointee => by
      have inner := pointee.closing_shows
      unfold CxxType.after CxxType.closing
      cases closes : pointee.closing with
      | some found =>
          rw [closes] at inner
          exact inner.append _
      | none =>
          rw [closes] at inner
          cases pointee.isArray with
          | true => exact inner.paren
          | false => exact inner
  | .array size element => by
      have inner := element.closing_shows
      unfold CxxType.after CxxType.closing
      cases closes : element.closing with
      | some found =>
          rw [closes] at inner
          have joined := inner.append
            ('[' :: (size.elim [] (Nat.toDigits 10) ++ [']']))
          simpa using joined
      | none =>
          rw [closes] at inner
          have other : ∀ c : Char, c.isDigit = false → c ≠ '[' → c ≠ ']' →
              c ∉ element.after false →
                c ∉ '[' :: (size.elim [] (Nat.toDigits 10) ++ ']' :: element.after false) := by
            intro c digit opens closes' later
            rw [List.mem_cons, List.mem_append, List.mem_cons, not_or, not_or, not_or]
            exact ⟨opens, fun listed => by simp [size_char listed] at digit, closes', later⟩
          exact ⟨other _ (by decide) (by decide) (by decide) inner.1, Or.inr ⟨_, rfl⟩,
            other _ (by decide) (by decide) (by decide) inner.2.noC,
            other _ (by decide) (by decide) (by decide) inner.2.noV⟩
  | .paren inner => by
      have shown := inner.closing_shows
      unfold CxxType.after CxxType.closing
      cases closes : inner.closing with
      | some found =>
          rw [closes] at shown
          exact shown.append _
      | none =>
          rw [closes] at shown
          cases inner.isFunction with
          | true => exact shown
          | false => exact shown.paren
  | .function proto => by
      unfold CxxType.after CxxType.closing
      exact proto.atEnd_shows false

/-- A prototype shows what `atEnd` says. -/
theorem FunctionProto.atEnd_shows : (proto : FunctionProto) → (emptyPlaceHolder : Bool) →
    Shows (proto.after emptyPlaceHolder) (some proto.atEnd)
  | .mk returnType hasTrailingReturn params isVariadic info typeQuals refQualifier
      exceptions, emptyPlaceHolder => by
      have inner := returnType.closing_shows
      have placed : ∀ {returned : Text} {quals : MethodQuals},
          ClosedLast typeQuals refQualifier exceptions returned quals →
          Shows ((if emptyPlaceHolder then [] else [')']) ++ '(' ::
            (printTypeList params ++ (endOfParams params.isEmpty isVariadic ++ ')' ::
              (info.text ++ (methodQualifiers typeQuals refQualifier ++
                (exceptions.print ++ returned)))))) (some quals) := by
        intro returned quals last
        have joined := prototype_shows ((if emptyPlaceHolder then [] else [')']) ++ '(' ::
          (printTypeList params ++ endOfParams params.isEmpty isVariadic)) info last
        rw [List.append_assoc, List.cons_append, List.append_assoc] at joined
        exact joined
      have own : exceptions.isParenthesized = false →
          mentions (methodQualifiers typeQuals refQualifier ++ exceptions.print) = _ :=
        fun bare => (methodQualifiers_facts typeQuals refQualifier bare).2
      unfold FunctionProto.after FunctionProto.atEnd
      apply placed
      cases hasTrailingReturn with
      | true =>
          simp only [if_true]
          cases found : behindLast ')' (returnType.before true ++ returnType.after true) with
          | some text =>
              refine .returned ⟨text, ?_, rfl⟩
              unfold trailingReturn
              exact behindLast_append_of_some found
          | none =>
              have clean : ')' ∉ trailingReturn
                  (returnType.before true ++ returnType.after true) := by
                rw [trailingReturn_eq]
                have inside := behindLast_eq_none.mp found
                simpa using inside
              cases parenthesized : exceptions.isParenthesized with
              | false =>
                  refine .params clean ?_ parenthesized
                  rw [mentions_trailing, own parenthesized]
                  rfl
              | true =>
                  refine .exceptions clean ?_ parenthesized
                  have nothing := mentions_trailing []
                    (returnType.before true ++ returnType.after true)
                  rw [List.nil_append, mentions_of_lacks List.not_mem_nil List.not_mem_nil]
                    at nothing
                  exact nothing
      | false =>
          simp only [Bool.false_eq_true, if_false]
          cases closes : returnType.closing with
          | some quals =>
              rw [closes] at inner
              exact .returned inner
          | none =>
              rw [closes] at inner
              obtain ⟨clean, brackets⟩ := inner
              cases parenthesized : exceptions.isParenthesized with
              | false =>
                  refine .params clean ?_ parenthesized
                  rw [mentions_append_brackets brackets, own parenthesized]
                  rfl
              | true =>
                  exact .exceptions clean (mentions_of_lacks brackets.noC brackets.noV)
                    parenthesized

end

end Closing

section Calls

/-- The backward loop, from the end of a part with nothing closed behind it. -/
private theorem cutQualifiers_loop (first : Char) (front : Text) {behind : Text}
    (clean : ')' ∉ behind) :
    cutQualifiers.loop (first :: (front ++ behind)) front.length =
      (behindLast ')' (front ++ behind)).getD (first :: (front ++ behind)) := by
  induction front using List.reverseRecOn generalizing behind with
  | nil =>
      rw [List.nil_append, behindLast_eq_none.mpr clean]
      rfl
  | append_singleton front last inductionHypothesis =>
      have split : first :: (front ++ [last] ++ behind) =
          (first :: front) ++ last :: behind := by simp
      have here : (first :: (front ++ [last] ++ behind))[front.length + 1]? = some last := by
        rw [split, List.getElem?_append_right (by simp)]
        simp
      rw [List.length_append, List.length_singleton, cutQualifiers.loop, here]
      by_cases closes : last = ')'
      · subst closes
        have found : behindLast ')' (front ++ [')'] ++ behind) = some behind := by
          rw [List.append_assoc]
          exact behindLast_closed front ⟨[], rfl⟩ clean
        rw [if_pos rfl, found, Option.getD_some]
        split
        next inside =>
          rw [substr, split]
          have skipped : ((first :: front) ++ ')' :: behind).drop (front.length + 2) =
              behind := by
            rw [List.drop_append]
            simp
          rw [skipped]
          apply List.take_of_length_le
          simp
        next atEnd =>
          have empty : behind.length = 0 := by
            simp only [split, List.length_append, List.length_cons] at atEnd
            omega
          exact (List.length_eq_zero_iff.mp empty).symm
      · rw [if_neg (by simpa using closes)]
        have others : ')' ∉ last :: behind := by
          rw [List.mem_cons, not_or]
          exact ⟨Ne.symm closes, clean⟩
        rw [List.append_assoc]
        exact inductionHypothesis others

/-- What is searched is what stands behind the last parenthesis. -/
theorem cutQualifiers_eq (first : Char) (rest : Text) :
    cutQualifiers (first :: rest) = (behindLast ')' rest).getD (first :: rest) := by
  have cut := cutQualifiers_loop first rest (show ')' ∉ [] from List.not_mem_nil)
  rw [List.append_nil] at cut
  exact cut

/-- The qualifiers that are found are those behind the last parenthesis. -/
theorem mentions_cutQualifiers (proto : FunctionProto) :
    mentions (cutQualifiers proto.getAsString) = proto.atEnd := by
  obtain ⟨behind, found, mentioned⟩ := proto.atEnd_shows true
  have opens : ∃ first rest, proto.after true = first :: rest ∧ first ≠ ')' := by
    obtain ⟨returnType, hasTrailingReturn, params, isVariadic, info, typeQuals,
      refQualifier, exceptions⟩ := proto
    unfold FunctionProto.after
    exact ⟨'(', _, rfl, by decide⟩
  obtain ⟨first, rest, isAfter, other⟩ := opens
  have inRest : behindLast ')' rest = some behind := by
    rw [isAfter, behindLast] at found
    cases later : behindLast ')' rest with
    | some text =>
        rw [later] at found
        exact found
    | none =>
        rw [later, if_neg other] at found
        cases found
  have cut : cutQualifiers proto.getAsString = behind := by
    rw [FunctionProto.getAsString, isAfter]
    cases proto.before true with
    | nil => rw [List.nil_append, cutQualifiers_eq, inRest]; rfl
    | cons head front =>
        rw [List.cons_append, cutQualifiers_eq, behindLast_append_of_some
          (show behindLast ')' (first :: rest) = some behind by rw [← isAfter]; exact found)]
        rfl
  rw [cut, mentioned]

/-- The record has the field between the class and the type. -/
theorem emitCxxMemberPointerCallExpr_text (proto : FunctionProto)
    (className type : Printed) :
    (emitCxxMemberPointerCallExpr proto className type).text =
      "P#".toList ++ className.text ++ '#' :: qualifierField proto ++ '#' :: type.text :=
  rfl

/-- The letters of the field. -/
theorem mem_qualifierField (proto : FunctionProto) :
    ('c' ∈ qualifierField proto ↔ proto.atEnd.isConst = true) ∧
      ('o' ∈ qualifierField proto ↔ proto.atEnd.isVolatile = true) := by
  rw [qualifierField, mentions_cutQualifiers]
  cases proto.atEnd.isConst <;> cases proto.atEnd.isVolatile <;> decide

/-- Most prototypes: nothing closes a parenthesis behind the qualifiers. -/
theorem legible_of_plain {returnType : CxxType} {params : List CxxType}
    {isVariadic : Bool} {info : ExtInfo} {typeQuals : CvrQuals} {ref : RefQualifier}
    {exceptions : ExceptionSpec} (returned : returnType.closing = none)
    (bare : exceptions.isParenthesized = false) :
    (FunctionProto.mk returnType false params isVariadic info typeQuals ref
      exceptions).Legible := by
  unfold FunctionProto.Legible FunctionProto.atEnd
  rw [returned, bare]
  rfl

/--
The qualifier field of a call through a pointer to a method has the letters of the
method's qualifiers, and `parse_icfs` reads the record as a call of a method with
these qualifiers, exactly when the method's own qualifiers stand behind the last
parenthesis of its printed prototype, or equal ones do, and no `#` is in the names of
the record.
-/
theorem method_pointer_qualifiers_iff (proto : FunctionProto) (className type : Printed)
    (rest : Text) :
    (('c' ∈ qualifierField proto ↔ proto.typeQuals.isConst = true) ∧
      ('o' ∈ qualifierField proto ↔ proto.typeQuals.isVolatile = true) ∧
      parseIcfType ((emitCxxMemberPointerCallExpr proto className type).text ++
          nul :: rest) =
        .ok (.pointerToMethodCall className.text
          (methodPointerAttrs proto.typeQuals.isConst proto.typeQuals.isVolatile)
          type.text, rest)) ↔
      proto.Legible ∧ '#' ∉ className.text ∧ '#' ∉ type.text := by
  have letters := mem_qualifierField proto
  rw [letters.1, letters.2]
  constructor
  · rintro ⟨isConst, isVolatile, read⟩
    have names := parseIcfType_names read
    refine ⟨?_, names _ List.mem_cons_self,
      names _ (List.mem_cons_of_mem _ List.mem_cons_self)⟩
    rw [FunctionProto.Legible, FunctionProto.methodQuals, ← Bool.eq_iff_iff.mpr isConst,
      ← Bool.eq_iff_iff.mpr isVolatile]
  · rintro ⟨legible, classClear, typeClear⟩
    rw [FunctionProto.Legible] at legible
    have call : emitCxxMemberPointerCallExpr proto className type =
        .methodPointer className proto.typeQuals.isConst proto.typeQuals.isVolatile
          type := by
      rw [emitCxxMemberPointerCallExpr, mentions_cutQualifiers, legible]
      rfl
    rw [legible, call]
    refine ⟨Iff.rfl, Iff.rfl, ?_⟩
    apply parseIcfType_text
    intro name listed
    rcases List.mem_cons.mp listed with rfl | other
    · exact classClear
    · rw [List.mem_singleton.mp other]
      exact typeClear

/-- `void (int)`. -/
def voidOfInt : FunctionProto :=
  .mk (.specifier "void".toList) false [.specifier "int".toList] false
    { cc := .c, noReturn := false, regParm := 0 }
    { isConst := false, isVolatile := false, isRestrict := false } .none .none

/-- A `const` method that takes an `int` and returns a pointer to a function. -/
def returnsFunction : FunctionProto :=
  .mk (.pointer ['*'] { isConst := false, isVolatile := false, isRestrict := false }
      (.paren (.function voidOfInt)))
    false [.specifier "int".toList] false
    { cc := .c, noReturn := false, regParm := 0 }
    { isConst := true, isVolatile := false, isRestrict := false } .none .none

/-- The parameters of the returned function close the last parenthesis. -/
theorem const_method_unqualified :
    returnsFunction.getAsString = "void (*(int) const)(int)".toList ∧
      returnsFunction.typeQuals.isConst = true ∧
      qualifierField returnsFunction = [] ∧
      ¬ ('c' ∈ qualifierField returnsFunction ↔
        returnsFunction.typeQuals.isConst = true) := by
  refine ⟨?_, ?_, ?_, ?_⟩ <;> decide

end Calls

end Mcfi
