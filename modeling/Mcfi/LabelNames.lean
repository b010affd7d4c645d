import Mathlib.Algebra.Group.Nat.Defs
import Mathlib.Data.List.TakeWhile
import Mcfi.Lib.Numerals
import Mcfi.Sections

namespace Mcfi

/-!
# Names in labels

The compiler puts a label behind each call and at each landing pad.  The name of the
label says what the label is made for: behind a prefix, a sequence number in hex and an
underscore stands the name of a function or the ID of a branch.  The runtime tells the
labels apart by their prefixes and reads over a run of letters and digits and one
underscore.
-/

section Emission

/-- A name of a function; LLVM keeps no NUL in a name. -/
structure SymbolName where
  text : Text
  noNul : nul ∉ text

/-- `to_hex`. -/
def toHex (number : Nat) : Text :=
  Nat.toDigits 16 number

/-- The calls that a label is put behind. -/
inductive PrintedCallOpcode where
  | callPcrel32
  | call64Pcrel32
  | call32r
  | call64r
  deriving DecidableEq, Repr

/-- A call instruction: the name of its operand, or the slot of its branch ID. -/
structure PrintedCall where
  opcode : PrintedCallOpcode
  funcName : SymbolName
  barySlot : Nat
  isNoReturnFunction : Bool

/-- The options of the target. -/
structure TargetOptions where
  disableCFI : Bool
  disablePICFI : Bool

/-- What a label is put at. -/
inductive LabelSite where
  | directCall (callee : SymbolName)
  | indirectCall (barySlot : Nat)
  | patchAt (function : SymbolName)
  | landingPad (function : SymbolName)

/-- What the names of the calls begin with that announce a taken address. -/
def patchAtPrefix : Text :=
  "__patch_at".toList

/-- `EmitInstruction`: what the label behind a call is made for. -/
def PrintedCall.labelSite (options : TargetOptions) (instr : PrintedCall) : Option LabelSite :=
  if options.disableCFI then
    none
  else
    match instr.opcode with
    | .call32r => some (.indirectCall instr.barySlot)
    | .call64r => some (.indirectCall instr.barySlot)
    | .callPcrel32 =>
        if instr.isNoReturnFunction then none else some (.directCall instr.funcName)
    | .call64Pcrel32 =>
        if instr.isNoReturnFunction then
          none
        else if !options.disablePICFI && patchAtPrefix.isPrefixOf instr.funcName.text then
          some (.patchAt
            { text := instr.funcName.text.drop 10
              noNul := fun inside => instr.funcName.noNul (List.mem_of_mem_drop inside) })
        else
          some (.directCall instr.funcName)

/-- The name that is cut out of `FuncName` behind `__patch_at`. -/
def cutFuncName (funcName : Text) : Text :=
  match funcName.idxOf? '@' with
  | some atsym => substr funcName 10 atsym
  | none => substr funcName 10 (funcName.length - 10)

/-- The label with a sequence number. -/
def LabelSite.label (seq : Nat) : LabelSite → Text
  | .directCall callee => "__mcfi_dcj_".toList ++ (toHex seq ++ '_' :: callee.text)
  | .indirectCall barySlot => "__mcfi_icj_".toList ++ (toHex seq ++ '_' :: toHex barySlot)
  | .patchAt function =>
      "__mcfi_at_".toList ++
        (toHex seq ++ '_' :: cutFuncName (patchAtPrefix ++ function.text))
  | .landingPad function => "__mcfi_lp_".toList ++ (toHex seq ++ '_' :: function.text)

/-- The name that goes to `AddrTakenFunctionsInCode`. -/
def LabelSite.recorded : LabelSite → Option Text
  | .patchAt function => some (cutFuncName (patchAtPrefix ++ function.text))
  | _ => none

/--
The two counters of the printer, the labels so far, and the names for the section
`.MCFIAddrTakenInCode`.
-/
structure LabelState where
  seq : Nat
  landingPadSeq : Nat
  labels : List Text
  addrTakenFunctionsInCode : List Text

/-- The printer puts a label; the counter of the landing pads is an `unsigned`. -/
def LabelState.put (state : LabelState) (site : LabelSite) : LabelState :=
  match site with
  | .landingPad _ =>
      let next := (state.landingPadSeq + 1) % 2 ^ 32
      { state with
        landingPadSeq := next
        labels := state.labels ++ [site.label next] }
  | _ =>
      let next := (state.seq + 1) % 2 ^ 64
      { state with
        seq := next
        labels := state.labels ++ [site.label next]
        addrTakenFunctionsInCode :=
          site.recorded.elim state.addrTakenFunctionsInCode
            fun name => state.addrTakenFunctionsInCode.insert name }

/-- The labels of a module. -/
def LabelState.run (state : LabelState) (sites : List LabelSite) : LabelState :=
  sites.foldl LabelState.put state

end Emission

section Decoding

/-- The string at an offset of the string table. -/
def stringAt (strtab : Text) (offset : Nat) : Text :=
  (strtab.drop offset).takeWhile (· != nul)

/-- `eat_hex_and_udscore`. -/
def eatHexAndUdscore (c : Text) : Text :=
  match c.dropWhile Char.isAlphanum with
  | '_' :: rest => rest
  | rest => rest

/-- What the loader takes a label for. -/
inductive LabelMeaning where
  | dcj (name : Text)
  | icj (name : Text)
  | addrTaken (name : Text)
  | landingPad (function : Text)
  deriving DecidableEq, Repr

/-- `load_mcfi_metadata`, the names of symbols with a prefix. -/
def readLabel (symname : Text) : Option LabelMeaning :=
  if "__mcfi_dcj_".toList.isPrefixOf symname then
    some (.dcj (eatHexAndUdscore (symname.drop 11)))
  else if "__mcfi_icj_".toList.isPrefixOf symname then
    some (.icj (eatHexAndUdscore (symname.drop 11)))
  else if "__mcfi_at_".toList.isPrefixOf symname then
    some (.addrTaken (eatHexAndUdscore (symname.drop 10)))
  else if "__mcfi_lp_".toList.isPrefixOf symname then
    some (.landingPad (eatHexAndUdscore (symname.drop 10)))
  else
    none

/--
What a label is made for.  A suffix of the name of an external symbol is not part of
the name of the function.
-/
def LabelSite.meaning : LabelSite → LabelMeaning
  | .directCall callee => .dcj callee.text
  | .indirectCall barySlot => .icj (toHex barySlot)
  | .patchAt function => .addrTaken (function.text.takeWhile (· != '@'))
  | .landingPad function => .landingPad function.text

end Decoding

section Names

variable (number : Nat) (name : Text)

private theorem toHex_alphanum {c : Char} (listed : c ∈ toHex number) :
    c.isAlphanum = true :=
  Numerals.isAlphanum_of_mem_toDigits (by decide) (by decide) listed

/-- The loader reads over the number and the underscore, whatever the name begins with. -/
theorem eatHexAndUdscore_toHex :
    eatHexAndUdscore (toHex number ++ '_' :: name) = name := by
  have digits : ∀ c ∈ toHex number, c.isAlphanum = true :=
    fun c => toHex_alphanum number
  rw [eatHexAndUdscore, List.dropWhile_append_of_pos digits]
  rfl

/-- A name without an `@` is cut out whole. -/
theorem cutFuncName_of_not_mem (clean : '@' ∉ name) :
    cutFuncName (patchAtPrefix ++ name) = name := by
  have none : (patchAtPrefix ++ name).idxOf? '@' = none := by
    rw [List.idxOf?_eq_none_iff, List.mem_append, not_or]
    exact ⟨by decide, clean⟩
  have length : (patchAtPrefix ++ name).length - 10 = name.length := by
    rw [List.length_append]
    exact Nat.add_sub_cancel_left 10 name.length
  rw [cutFuncName, none]
  dsimp only
  rw [substr, length]
  exact List.take_length

private theorem idxOf?_append_cons {front rest : Text} {c : Char} (clean : c ∉ front) :
    (front ++ c :: rest).idxOf? c = some front.length := by
  induction front with
  | nil => rw [List.nil_append, List.idxOf?_cons, if_pos (beq_self_eq_true c)]; rfl
  | cons head front inductionHypothesis =>
      rw [List.mem_cons, not_or] at clean
      rw [List.cons_append, List.idxOf?_cons, if_neg (by simpa using Ne.symm clean.1),
        inductionHypothesis clean.2]
      rfl

/-- Of a suffix, ten characters stay in the name. -/
theorem cutFuncName_suffix {function suffix : Text} (clean : '@' ∉ function) :
    cutFuncName (patchAtPrefix ++ (function ++ '@' :: suffix)) =
      function ++ '@' :: suffix.take 9 := by
  have found : (patchAtPrefix ++ (function ++ '@' :: suffix)).idxOf? '@' =
      some (patchAtPrefix ++ function).length := by
    rw [← List.append_assoc]
    apply idxOf?_append_cons
    rw [List.mem_append, not_or]
    exact ⟨by decide, clean⟩
  rw [cutFuncName, found]
  dsimp only
  have behind : (patchAtPrefix ++ (function ++ '@' :: suffix)).drop 10 =
      function ++ '@' :: suffix := rfl
  have length : (patchAtPrefix ++ function).length = function.length + 10 := by
    rw [List.length_append]
    exact Nat.add_comm 10 function.length
  rw [substr, behind, length, List.take_append, List.take_of_length_le (by omega),
    Nat.add_sub_cancel_left]
  rfl

end Names

section Labels

/-- What a label says. -/
def LabelSite.carried : LabelSite → LabelMeaning
  | .patchAt function => .addrTaken (cutFuncName (patchAtPrefix ++ function.text))
  | site => site.meaning

variable (site : LabelSite) (seq : Nat)

private theorem readLabel_dcj (rest : Text) :
    readLabel ("__mcfi_dcj_".toList ++ rest) = some (.dcj (eatHexAndUdscore rest)) :=
  rfl

private theorem readLabel_icj (rest : Text) :
    readLabel ("__mcfi_icj_".toList ++ rest) = some (.icj (eatHexAndUdscore rest)) :=
  rfl

private theorem readLabel_at (rest : Text) :
    readLabel ("__mcfi_at_".toList ++ rest) = some (.addrTaken (eatHexAndUdscore rest)) :=
  rfl

private theorem readLabel_lp (rest : Text) :
    readLabel ("__mcfi_lp_".toList ++ rest) = some (.landingPad (eatHexAndUdscore rest)) :=
  rfl

/-- The loader reads what a label says, for every sequence number. -/
theorem readLabel_label : readLabel (site.label seq) = some site.carried := by
  cases site with
  | directCall callee =>
      apply (readLabel_dcj _).trans
      rw [eatHexAndUdscore_toHex]
      rfl
  | indirectCall barySlot =>
      apply (readLabel_icj _).trans
      rw [eatHexAndUdscore_toHex]
      rfl
  | patchAt function =>
      apply (readLabel_at _).trans
      rw [eatHexAndUdscore_toHex]
      rfl
  | landingPad function =>
      apply (readLabel_lp _).trans
      rw [eatHexAndUdscore_toHex]
      rfl

/-- A label has no NUL. -/
theorem LabelSite.label_noNul : nul ∉ site.label seq := by
  have hex : ∀ number, nul ∉ toHex number := fun number listed =>
    absurd (toHex_alphanum number listed) (by decide)
  have joined : ∀ {front name : Text}, nul ∉ front → nul ∉ name →
      nul ∉ front ++ (toHex seq ++ '_' :: name) := by
    intro front name clean named
    rw [List.mem_append, List.mem_append, List.mem_cons, not_or, not_or, not_or]
    exact ⟨clean, hex seq, by decide, named⟩
  cases site with
  | directCall callee => exact joined (by decide) callee.noNul
  | indirectCall barySlot => exact joined (by decide) (hex barySlot)
  | patchAt function =>
      refine joined (by decide) fun listed => ?_
      have whole : nul ∈ patchAtPrefix ++ function.text := by
        unfold cutFuncName at listed
        split at listed
        all_goals exact List.mem_of_mem_drop (List.mem_of_mem_take listed)
      rcases List.mem_append.mp whole with early | late
      · exact absurd early (by decide)
      · exact function.noNul late
  | landingPad function => exact joined (by decide) function.noNul

/-- The loader finds the label in the string table. -/
theorem stringAt_label (lead behind : Text) :
    stringAt (lead ++ (site.label seq ++ nul :: behind)) lead.length = site.label seq := by
  rw [stringAt, List.drop_left]
  apply Delimited.takeWhile_append_stops
  · intro c listed
    rw [bne_iff_ne]
    rintro rfl
    exact site.label_noNul seq listed
  · intro c first
    cases first
    rfl

/-- The condition: the name behind `__patch_at` has no suffix. -/
def LabelSite.SuffixFree : LabelSite → Prop
  | .patchAt function => '@' ∉ function.text
  | _ => True

/-- A label says what it is made for exactly when no suffix is cut from its name. -/
theorem LabelSite.carried_eq_meaning : site.carried = site.meaning ↔ site.SuffixFree := by
  cases site with
  | directCall callee => exact iff_of_true rfl trivial
  | indirectCall barySlot => exact iff_of_true rfl trivial
  | landingPad function => exact iff_of_true rfl trivial
  | patchAt function =>
      change LabelMeaning.addrTaken _ = .addrTaken _ ↔ '@' ∉ function.text
      rw [LabelMeaning.addrTaken.injEq]
      constructor
      · intro same suffixed
        obtain ⟨front, suffix, split, clean⟩ := List.eq_append_cons_of_mem suffixed
        rw [split, cutFuncName_suffix clean] at same
        have listed : '@' ∈ front ++ '@' :: suffix.take 9 := by simp
        rw [same] at listed
        have stopped := List.mem_takeWhile_imp listed
        exact absurd stopped (by decide)
      · intro clean
        rw [cutFuncName_of_not_mem _ clean]
        refine (List.takeWhile_eq_self_iff.mpr fun c listed => ?_).symm
        rw [bne_iff_ne]
        rintro rfl
        exact clean listed

/-- What is recorded is what the label says, with or without a suffix. -/
theorem LabelSite.carried_of_recorded {name : Text} (recorded : name ∈ site.recorded) :
    site.carried = .addrTaken name := by
  cases site <;> cases recorded
  rfl

/--
The loader's decoding of a label, wherever its name is in the string table and
whatever the sequence number, yields what the label is made for, and for an
address-taken site the name in `.MCFIAddrTakenInCode`, exactly when the label is not
made for the address of a symbol with an `@` suffix.
-/
theorem label_names_iff (lead behind : Text) :
    (readLabel (stringAt (lead ++ (site.label seq ++ nul :: behind)) lead.length) =
        some site.meaning ∧
      ∀ name ∈ site.recorded,
        readLabel (stringAt (lead ++ (site.label seq ++ nul :: behind)) lead.length) =
          some (.addrTaken name)) ↔ site.SuffixFree := by
  rw [stringAt_label, readLabel_label, Option.some.injEq, ← site.carried_eq_meaning]
  constructor
  · exact fun held => held.1
  · exact fun same => ⟨same, fun name recorded =>
      congrArg some (site.carried_of_recorded recorded)⟩

/-- The name of a versioned symbol. -/
def versionedMemcpy : SymbolName where
  text := "memcpy@GLIBC_2.2.5".toList
  noNul := by decide

/-- Ten characters of the version stay in the name of the function. -/
theorem version_in_label :
    (LabelSite.patchAt versionedMemcpy).meaning = .addrTaken "memcpy".toList ∧
      readLabel (stringAt ((LabelSite.patchAt versionedMemcpy).label 1 ++ [nul]) 0) =
        some (.addrTaken "memcpy@GLIBC_2.2".toList) ∧
      readLabel (stringAt ((LabelSite.patchAt versionedMemcpy).label 1 ++ [nul]) 0) ≠
        some (LabelSite.patchAt versionedMemcpy).meaning := by
  refine ⟨?_, ?_, ?_⟩ <;> decide

end Labels

section Modules

/-- What the printer puts labels at: calls, and the blocks that are landing pads. -/
inductive PrintedItem where
  | call (instr : PrintedCall)
  | landingPad (function : SymbolName)

/-- `EmitInstruction` and `EmitBasicBlockStart`. -/
def PrintedItem.labelSite (options : TargetOptions) : PrintedItem → Option LabelSite
  | .call instr => instr.labelSite options
  | .landingPad function =>
      if options.disableCFI then none else some (.landingPad function)

/-- The printer goes over a module. -/
def printLabels (options : TargetOptions) (items : List PrintedItem) : LabelState :=
  LabelState.run { seq := 0, landingPadSeq := 0, labels := [], addrTakenFunctionsInCode := [] }
    (items.filterMap (PrintedItem.labelSite options))

variable (state : LabelState) (sites : List LabelSite)

/-- A label is put behind the others, and says what it carries. -/
theorem put_labels (site : LabelSite) :
    (state.put site).labels.map readLabel =
      state.labels.map readLabel ++ [some site.carried] := by
  cases site <;>
    exact (List.map_append ..).trans
      (congrArg (state.labels.map readLabel ++ ·)
        (congrArg (fun read => [read]) (readLabel_label _ _)))

/-- A name is recorded with the label that says it. -/
theorem put_recorded (site : LabelSite) {name : Text} :
    name ∈ (state.put site).addrTakenFunctionsInCode ↔
      name ∈ state.addrTakenFunctionsInCode ∨ site.carried = .addrTaken name := by
  cases site with
  | directCall callee => exact (or_iff_left (fun never => nomatch never)).symm
  | indirectCall barySlot => exact (or_iff_left (fun never => nomatch never)).symm
  | landingPad function => exact (or_iff_left (fun never => nomatch never)).symm
  | patchAt function =>
      refine (List.mem_insert_iff).trans ?_
      rw [or_comm]
      refine or_congr_right ?_
      rw [LabelSite.carried, LabelMeaning.addrTaken.injEq]
      exact eq_comm

/-- The labels of a run say in order what they carry. -/
theorem run_labels :
    (state.run sites).labels.map readLabel =
      state.labels.map readLabel ++ sites.map fun site => some site.carried := by
  induction sites generalizing state with
  | nil => simp [LabelState.run]
  | cons site rest inductionHypothesis =>
      have next := inductionHypothesis (state.put site)
      rw [put_labels] at next
      simpa [LabelState.run] using next

/-- The names that a run records are the names that its labels say. -/
theorem run_recorded {name : Text} :
    name ∈ (state.run sites).addrTakenFunctionsInCode ↔
      name ∈ state.addrTakenFunctionsInCode ∨
        ∃ site ∈ sites, site.carried = .addrTaken name := by
  induction sites generalizing state with
  | nil => simp [LabelState.run]
  | cons site rest inductionHypothesis =>
      have next := inductionHypothesis (state.put site)
      rw [put_recorded] at next
      simpa [LabelState.run, or_assoc] using next

variable (options : TargetOptions) (items : List PrintedItem)

/-- The loader reads the labels of a module as what they are made for. -/
theorem printLabels_read
    (free : ∀ site ∈ items.filterMap (PrintedItem.labelSite options), site.SuffixFree) :
    (printLabels options items).labels.map readLabel =
      (items.filterMap (PrintedItem.labelSite options)).map fun site =>
        some site.meaning := by
  rw [printLabels, run_labels]
  apply List.map_congr_left
  intro site listed
  exact congrArg some (site.carried_eq_meaning.mpr (free site listed))

/-- In every module the labels of address-taken sites say the recorded names. -/
theorem printLabels_recorded (name : Text) :
    name ∈ (printLabels options items).addrTakenFunctionsInCode ↔
      ∃ label ∈ (printLabels options items).labels,
        readLabel label = some (.addrTaken name) := by
  have read : some (LabelMeaning.addrTaken name) ∈
      (printLabels options items).labels.map readLabel ↔ _ := List.mem_map
  rw [← read, printLabels, run_labels, run_recorded]
  simp

end Modules

end Mcfi
