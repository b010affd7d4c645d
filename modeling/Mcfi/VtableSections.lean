import Mcfi.Constants
import Mcfi.FunctionSections
import Mcfi.MethodNames

namespace Mcfi

open Delimited

/-!
# Virtual-table metadata

A compiler pass writes a record for every virtual table: the class and the functions
in the table, with a `#` in front of each.  `parse_vtable` takes the text up to the
first `#` or NUL for the class and what is behind it, up to a newline or the next
NUL, for the functions.  A record without functions has no `#`, so the record behind
it is read as its functions.
-/

section Compiler

/-- A global variable of a module. -/
structure GlobalVariable where
  name : Text
  initializer : Option Constant

/-- The named functions in an initializer, below their casts. -/
def namedFunctions (operands : List Constant) : List Text :=
  operands.filterMap fun operand => operand.innerMost.namedFunction

/-- The class of a virtual table and the functions in the table. -/
structure VtableRecord where
  className : Text
  functions : List Text
  deriving DecidableEq

/-- The record as it is written. -/
def VtableRecord.text (record : VtableRecord) : Text :=
  record.className ++ record.functions.flatMap fun function => '#' :: function

/-- The class and its functions. -/
def VtableRecord.entry (record : VtableRecord) : Text × List Text :=
  (record.className, record.functions)

variable (demangle : Text → Option Text)

/-- `runOnModule`, what it records about a global. -/
def vtableInfo (global : GlobalVariable) : Rt (Option Text) :=
  match global.initializer with
  | some (.array operands) =>
      let vtName := cxxDemangledName demangle global.name
      if "_ZTV".toList.isPrefixOf global.name &&
          "vtable".toList.isPrefixOf vtName then
        -- the words "vtable for "
        if 11 ≤ vtName.length then
          let info := VtableRecord.text ⟨vtName.drop 11, namedFunctions operands⟩
          -- `info.c_str()`
          return some (info.takeWhile (· != nul))
        else
          .error (.check "substr")
      else
        return none
  | _ => return none

/-- `runOnModule`, its loop over the globals. -/
def vtableInfos : List GlobalVariable → Rt (List Text)
  | [] => return []
  | global :: rest => do
      let info ← vtableInfo demangle global
      let infos ← vtableInfos rest
      return info.toList ++ infos

/-- The lines of `MCFIFuncInfo` about a constructor: the class behind `C `. -/
def constructorClass (functionName : Text) : Rt Text := do
  let demangledName := cxxDemangledName demangle functionName
  if demangledName = [] then
    .error (.quit "exit")
  else
    let demangledName ← splitMethodName demangledName
    match findLastOf '#' demangledName with
    | some sharp => return demangledName.take sharp
    | none => return demangledName

/--
A virtual table of a module.  The names of a module are one-line strings without
NULs.
-/
structure VtableGlobal where
  name : Text
  className : Printed
  operands : List Constant
  isVtable : "_ZTV".toList <+: name
  demangled : demangle name = some ("vtable for ".toList ++ className.text)
  -- no C++ name has these words in it
  noThunkWords : ¬ virtualThunk <:+: "vtable for ".toList ++ className.text
  noSharp : '#' ∉ className.text
  oneLine : ∀ function ∈ namedFunctions operands,
    nul ∉ function ∧ newline ∉ function

/-- A constructor of a class that has virtual methods. -/
structure ConstructorSymbol where
  className : Text
  text : Text
  linkageName : Text
  demangled : demangle linkageName = some (className ++ ':' :: ':' :: text)
  -- no C++ name has these words in it
  noThunkWords : ¬ virtualThunk <:+: className ++ ':' :: ':' :: text

end Compiler

section Runtime

/-- `_add_node_list`, for any symbol. -/
def addNodesBetween (symbol : Char) (list : Text) (nodes : List Text) :
    Rt (List Text) := do
  let (nodes, _) ← whileNotStop symbol (fun name nodes => return nodes ++ [name])
    (list.length + 1) (list ++ [nul]) nodes
  return nodes

/-- `parse_vtable`, the body of its loop. -/
def parseVtableEntry (cursor : Text) (vtable : OrdDict Text (List Text)) :
    Rt (OrdDict Text (List Text) × Text) := do
  let (ctorName, _, cursor) ← getStringBeforeSymbol '#' cursor
  let (list, _, cursor) ← getStringBeforeSymbol newline cursor
  let vmtd ← addNodesBetween '#' list []
  match dictFind vtable ctorName with
  | none => do
      let vtable ← dictAdd vtable ctorName vmtd
      return (vtable, cursor)
  | some _ => return (vtable, cursor)

/-- `parse_vtable`, its loop. -/
def parseVtable.loop (behind : Text) : Nat → Text → OrdDict Text (List Text) →
    Rt (OrdDict Text (List Text) × Text)
  | 0, _, _ => .error (.diverged "parse_vtable")
  | fuel + 1, cursor, vtable =>
      if cursor.length ≤ behind.length then
        return (vtable, cursor)
      else do
        let (vtable, cursor) ← parseVtableEntry cursor vtable
        parseVtable.loop behind fuel cursor vtable

/-- `parse_vtable`, with where the cursor is left. -/
def parseVtable (content behind : Text) : Rt (OrdDict Text (List Text) × Text) :=
  parseVtable.loop behind (content.length + 1) (content ++ behind) ∅

end Runtime

section Reading

/-- The texts of a record have no symbol in them that ends a record or a list. -/
structure VtableRecord.OneLine (record : VtableRecord) : Prop where
  noSharp : '#' ∉ record.className
  className : Clear newline record.className
  functions : ∀ function ∈ record.functions, Clear newline function

/-- A record is its class, or its class and its functions joined behind a `#`. -/
theorem VtableRecord.text_cases (record : VtableRecord) :
    record.functions = [] ∧ record.text = record.className ∨
      record.functions ≠ [] ∧
        record.text = record.className ++ '#' :: ['#'].intercalate record.functions := by
  obtain ⟨className, functions⟩ := record
  cases functions with
  | nil =>
      exact .inl ⟨rfl, List.append_nil className⟩
  | cons first rest =>
      refine .inr ⟨List.cons_ne_nil _ _, ?_⟩
      exact congrArg (className ++ ·) (flatMap_separated '#' first rest)

theorem VtableRecord.OneLine.clear {record : VtableRecord} (oneLine : record.OneLine) :
    Clear '#' record.className := by
  refine clear_iff.mpr ⟨?_, oneLine.noSharp⟩
  exact (clear_iff.mp oneLine.className).1

theorem VtableRecord.OneLine.clear_functions {record : VtableRecord}
    (oneLine : record.OneLine) :
    Clear newline (['#'].intercalate record.functions) := by
  intro c inside
  rcases of_mem_intercalate inside with rfl | ⟨function, listed, inFunction⟩
  · decide
  · exact oneLine.functions function listed c inFunction

theorem VtableRecord.OneLine.clear_text {record : VtableRecord}
    (oneLine : record.OneLine) : Clear newline record.text := by
  rcases record.text_cases with ⟨_, text⟩ | ⟨_, text⟩
  · rw [text]
    exact oneLine.className
  · rw [text]
    intro c inside
    rcases List.mem_append.mp inside with inClass | inFunctions
    · exact oneLine.className c inClass
    · rcases List.mem_cons.mp inFunctions with rfl | inFunctions
      · decide
      · exact oneLine.clear_functions c inFunctions

/--
What the records are read as: a record with functions as itself, and a record without
functions as its class with the record behind it for its functions.
-/
def readings : List VtableRecord → Option (List (Text × List Text))
  | [] => some []
  | record :: rest =>
      if record.functions = [] then
        match rest with
        | [] => none
        | next :: others =>
            (readings others).map
              ((record.className, next.text.splitOn '#') :: ·)
      else
        (readings rest).map
          ((record.className, (['#'].intercalate record.functions).splitOn '#') :: ·)

variable {records : List VtableRecord} {behind left className list : Text}
  {vtable : OrdDict Text (List Text)} {stop listStop : Char}

/-- One entry: a class up to its end, and a list up to its end. -/
theorem parseVtableEntry_append (classEnds : endsAt '#' stop = true)
    (listEnds : endsAt newline listStop = true) (classClear : Clear '#' className)
    (listClear : Clear newline list) :
    parseVtableEntry (className ++ stop :: (list ++ listStop :: left)) vtable =
      .ok (vtable.insertNew className (list.splitOn '#'), left) := by
  have classTaken : getStringBeforeSymbol '#'
      (className ++ stop :: (list ++ listStop :: left)) =
        .ok (className, stop == nul, list ++ listStop :: left) := by
    rw [getStringBeforeSymbol, scan_append classClear classEnds]
  have listTaken : getStringBeforeSymbol newline (list ++ listStop :: left) =
      .ok (list, listStop == nul, left) := by
    rw [getStringBeforeSymbol, scan_append listClear listEnds]
  have nodes : addNodesBetween '#' list [] = .ok (list.splitOn '#') := by
    rw [addNodesBetween, whileNotStop_splitOn (by decide) (clear_iff.mp listClear).1,
      foldlM_push]
    rfl
  rw [parseVtableEntry]
  refine bind_eq_ok.mpr ⟨_, classTaken, bind_eq_ok.mpr ⟨_, listTaken, ?_⟩⟩
  refine bind_eq_ok.mpr ⟨_, nodes, ?_⟩
  cases held : dictFind vtable className with
  | none =>
      have fresh : className ∉ vtable := OrdDict.find_eq_none.mp held
      exact bind_eq_ok.mpr ⟨_, dictAdd_eq_ok.mpr ⟨fresh, rfl⟩, rfl⟩
  | some old =>
      have known : vtable.insertNew className (list.splitOn '#') = vtable :=
        OrdDict.insertNew_of_mem _ (OrdDict.mem_of_find held)
      rw [known]
      rfl

/-- The two texts that an entry takes. -/
theorem parseVtableEntry_ok {cursor : Text} {next : OrdDict Text (List Text)}
    (returned : parseVtableEntry cursor vtable = .ok (next, left)) :
    ∃ className classStop middle list listStop,
      getStringBeforeSymbol '#' cursor = .ok (className, classStop, middle) ∧
        getStringBeforeSymbol newline middle = .ok (list, listStop, left) := by
  rw [parseVtableEntry] at returned
  obtain ⟨⟨className, classStop, middle⟩, classTaken, returned⟩ :=
    bind_eq_ok.mp returned
  obtain ⟨⟨list, listStop, after⟩, listTaken, returned⟩ := bind_eq_ok.mp returned
  obtain ⟨vmtd, _, returned⟩ := bind_eq_ok.mp returned
  refine ⟨className, classStop, middle, list, listStop, classTaken, ?_⟩
  split at returned
  next =>
    obtain ⟨_, _, returned⟩ := bind_eq_ok.mp returned
    cases returned
    exact listTaken
  next =>
    cases returned
    exact listTaken

/-- The entries of a list, the first of a class for each. -/
def addEntries (entries : List (Text × List Text)) (vtable : OrdDict Text (List Text)) :
    OrdDict Text (List Text) :=
  entries.foldl (fun vtable entry => vtable.insertNew entry.1 entry.2) vtable

/-- A class that the section ends behind takes its functions from behind the section. -/
theorem parseVtable_behind {fuel : Nat} (clear : Clear '#' className)
    (vtable result : OrdDict Text (List Text)) :
    parseVtable.loop behind fuel (className ++ nul :: behind) vtable ≠
      .ok (result, behind) := by
  intro returned
  cases fuel with
  | zero => cases returned
  | succ fuel =>
      have more : ¬ (className ++ nul :: behind).length ≤ behind.length :=
        not_at_end className [] behind
      rw [parseVtable.loop, if_neg more] at returned
      obtain ⟨⟨next, cursor⟩, entry, returned⟩ := bind_eq_ok.mp returned
      have shorter : cursor.length < behind.length := by
        obtain ⟨_, _, middle, list, _, classTaken, listTaken⟩ :=
          parseVtableEntry_ok entry
        rw [getStringBeforeSymbol_nul clear] at classTaken
        cases classTaken
        obtain ⟨delimiter, _, _, split, _⟩ := getStringBeforeSymbol_ok listTaken
        rw [split, List.length_append, List.length_cons]
        omega
      cases fuel with
      | zero => cases returned
      | succ fuel =>
          simp only [parseVtable.loop, if_pos shorter.le] at returned
          cases returned
          exact Nat.lt_irrefl _ shorter

/-- One round of the loop, on an entry in front of the end of the section. -/
theorem parseVtableLoop_entry {fuel : Nat} {rest : Text}
    (classEnds : endsAt '#' stop = true) (listEnds : endsAt newline listStop = true)
    (classClear : Clear '#' className) (listClear : Clear newline list) :
    parseVtable.loop behind (fuel + 1)
        (className ++ stop :: (list ++ listStop :: (rest ++ behind))) vtable =
      parseVtable.loop behind fuel (rest ++ behind)
        (vtable.insertNew className (list.splitOn '#')) := by
  have more : ¬ (className ++ stop :: (list ++ listStop :: (rest ++ behind))).length ≤
      behind.length := by
    simp only [List.length_append, List.length_cons]
    omega
  rw [parseVtable.loop, if_neg more,
    parseVtableEntry_append classEnds listEnds classClear listClear]
  rfl

/-- What `parse_vtable` makes of a section that the records fill. -/
def ReadAs (behind : Text) (fuel : Nat) (records : List VtableRecord)
    (vtable : OrdDict Text (List Text)) : Option (List (Text × List Text)) → Prop
  | some entries =>
      parseVtable.loop behind fuel
          (emitMCFIInfo (records.map VtableRecord.text) ++ behind) vtable =
        .ok (addEntries entries vtable, behind)
  | none => ∀ result,
      parseVtable.loop behind fuel
          (emitMCFIInfo (records.map VtableRecord.text) ++ behind) vtable ≠
        .ok (result, behind)

/-- What is read of the records behind an entry is read of the records. -/
theorem ReadAs.entry {fuel : Nat} {rest : List VtableRecord}
    {entries : Option (List (Text × List Text))}
    (later : ReadAs behind fuel rest
      (vtable.insertNew className (list.splitOn '#')) entries)
    (round : parseVtable.loop behind (fuel + 1)
        (emitMCFIInfo (records.map VtableRecord.text) ++ behind) vtable =
      parseVtable.loop behind fuel
        (emitMCFIInfo (rest.map VtableRecord.text) ++ behind)
        (vtable.insertNew className (list.splitOn '#'))) :
    ReadAs behind (fuel + 1) records vtable
      (entries.map ((className, list.splitOn '#') :: ·)) := by
  cases entries with
  | none =>
      intro result
      rw [round]
      exact later result
  | some entries => exact round.trans later

/-- `parse_vtable` on a section. -/
theorem parseVtableLoop_records {fuel : Nat}
    (oneLine : ∀ record ∈ records, record.OneLine) (enough : records.length < fuel) :
    ReadAs behind fuel records vtable (readings records) := by
  induction records using readings.induct generalizing fuel vtable with
  | case1 =>
      obtain ⟨fuel, rfl⟩ := Nat.exists_eq_succ_of_ne_zero (by omega : fuel ≠ 0)
      change parseVtable.loop behind (fuel + 1) behind vtable = _
      rw [parseVtable.loop, if_pos le_rfl]
      rfl
  | case2 record empty =>
      have isLast : readings [record] = none := by
        rw [readings, if_pos empty]
      have section_ : emitMCFIInfo ([record].map VtableRecord.text) ++ behind =
          record.className ++ nul :: behind := by
        rw [List.map_singleton, emitMCFIInfo_cons]
        rcases record.text_cases with ⟨_, text⟩ | ⟨nonempty, _⟩
        · rw [text]
          rfl
        · exact absurd empty nonempty
      rw [isLast]
      intro result
      rw [section_]
      exact parseVtable_behind (oneLine record List.mem_cons_self).clear vtable result
  | case3 record empty next others inductionHypothesis =>
      obtain ⟨fuel, rfl⟩ := Nat.exists_eq_succ_of_ne_zero (by omega : fuel ≠ 0)
      have takes : readings (record :: next :: others) =
          (readings others).map ((record.className, next.text.splitOn '#') :: ·) := by
        rw [readings, if_pos empty]
      have isClass : record.text = record.className := by
        rcases record.text_cases with ⟨_, text⟩ | ⟨nonempty, _⟩
        · exact text
        · exact absurd empty nonempty
      rw [takes]
      refine ReadAs.entry (inductionHypothesis (fun other listed => oneLine other
        (List.mem_cons_of_mem _ (List.mem_cons_of_mem _ listed))) ?_) ?_
      · simp only [List.length_cons] at enough
        omega
      · rw [List.map_cons, List.map_cons, emitMCFIInfo_cons, emitMCFIInfo_cons, isClass]
        exact parseVtableLoop_entry (by decide) (by decide)
          (oneLine record List.mem_cons_self).clear
          (oneLine next (List.mem_cons_of_mem _ List.mem_cons_self)).clear_text
  | case4 record rest nonempty inductionHypothesis =>
      obtain ⟨fuel, rfl⟩ := Nat.exists_eq_succ_of_ne_zero (by omega : fuel ≠ 0)
      have takes : readings (record :: rest) = (readings rest).map
          ((record.className, (['#'].intercalate record.functions).splitOn '#') :: ·) := by
        rw [readings.eq_def]
        exact if_neg nonempty
      have isText : record.text =
          record.className ++ '#' :: ['#'].intercalate record.functions := by
        rcases record.text_cases with ⟨empty, _⟩ | ⟨_, text⟩
        · exact absurd empty nonempty
        · exact text
      have own := oneLine record List.mem_cons_self
      rw [takes]
      refine ReadAs.entry (inductionHypothesis (fun other listed => oneLine other
        (List.mem_cons_of_mem _ listed)) ?_) ?_
      · rw [List.length_cons] at enough
        omega
      · rw [List.map_cons, emitMCFIInfo_cons, isText, List.append_assoc, List.cons_append]
        exact parseVtableLoop_entry (by decide) (by decide) own.clear own.clear_functions

/-- `parse_vtable` reads a section to its end exactly when its records can be paired. -/
theorem parseVtable_section (oneLine : ∀ record ∈ records, record.OneLine)
    (result : OrdDict Text (List Text)) :
    parseVtable (emitMCFIInfo (records.map VtableRecord.text)) behind =
        .ok (result, behind) ↔
      ∃ entries, readings records = some entries ∧ result = addEntries entries ∅ := by
  have enough := length_le_emitMCFIInfo (records.map VtableRecord.text)
  rw [List.length_map] at enough
  have read := @parseVtableLoop_records records behind ∅ _ oneLine
    (Nat.lt_succ_of_le enough)
  cases paired : readings records with
  | none =>
      rw [paired] at read
      exact ⟨fun returned => absurd returned (read result),
        fun ⟨_, never, _⟩ => nomatch never⟩
  | some entries =>
      rw [paired] at read
      constructor
      · intro returned
        have same := read.symm.trans returned
        rw [Except.ok.injEq, Prod.mk.injEq] at same
        exact ⟨entries, rfl, same.1.symm⟩
      · rintro ⟨_, same, rfl⟩
        cases same
        exact read

/-- The names in an entry are pieces between `#`s. -/
theorem readings_pieces {entries : List (Text × List Text)}
    (read : readings records = some entries) :
    ∀ entry ∈ entries, entry.2 ≠ [] ∧ ∀ function ∈ entry.2, '#' ∉ function := by
  have isSplit (className text : Text) (entries : List (Text × List Text))
      (later : ∀ entry ∈ entries, entry.2 ≠ [] ∧ ∀ function ∈ entry.2, '#' ∉ function) :
      ∀ entry ∈ (className, text.splitOn '#') :: entries,
        entry.2 ≠ [] ∧ ∀ function ∈ entry.2, '#' ∉ function :=
    List.forall_mem_cons.mpr
      ⟨⟨List.splitOn_ne_nil _ _, fun _ listed => not_mem_of_mem_splitOn listed⟩, later⟩
  induction records using readings.induct generalizing entries with
  | case1 =>
      cases read
      exact fun _ never => nomatch never
  | case2 record empty =>
      rw [readings, if_pos empty] at read
      cases read
  | case3 record empty next others inductionHypothesis =>
      rw [readings, if_pos empty] at read
      obtain ⟨later, readLater, rfl⟩ := Option.map_eq_some_iff.mp read
      exact isSplit _ _ later (inductionHypothesis readLater)
  | case4 record rest nonempty inductionHypothesis =>
      rw [readings.eq_def] at read
      obtain ⟨later, readLater, rfl⟩ :=
        Option.map_eq_some_iff.mp ((if_neg nonempty).symm.trans read)
      exact isSplit _ _ later (inductionHypothesis readLater)

/-- The records can be paired, and the first record of every class is read back. -/
def Legible (records : List VtableRecord) : Prop :=
  ∃ entries, readings records = some entries ∧
    ∀ className, entries.lookup className =
      (records.map VtableRecord.entry).lookup className

/-- Records with functions that have no `#` are read as they are. -/
theorem readings_entries
    (whole : ∀ record ∈ records, record.functions ≠ [] ∧
      ∀ function ∈ record.functions, '#' ∉ function) :
    readings records = some (records.map VtableRecord.entry) := by
  induction records with
  | nil => rfl
  | cons record rest inductionHypothesis =>
      obtain ⟨nonempty, noSharp⟩ := whole record List.mem_cons_self
      have later := inductionHypothesis fun other listed =>
        whole other (List.mem_cons_of_mem _ listed)
      have back := (splitOn_intercalate_iff nonempty).mpr noSharp
      rw [readings.eq_def]
      refine (if_neg nonempty).trans ?_
      rw [later, back]
      rfl

/--
Where the records of a class name the same functions, the records are legible exactly
when every record has a function and no function has a `#` in its name.
-/
theorem legible_iff
    (agree : ∀ first ∈ records, ∀ second ∈ records,
      first.className = second.className → first.functions = second.functions) :
    Legible records ↔ ∀ record ∈ records, record.functions ≠ [] ∧
      ∀ function ∈ record.functions, '#' ∉ function := by
  constructor
  · rintro ⟨entries, read, same⟩ record listed
    have known : ((records.map VtableRecord.entry).lookup record.className).isSome := by
      rw [List.lookup_isSome_iff]
      exact ⟨record.entry, List.mem_map_of_mem listed, beq_self_eq_true _⟩
    obtain ⟨functions, expected⟩ := Option.isSome_iff_exists.mp known
    have own : functions = record.functions := by
      obtain ⟨_, _, split, _⟩ := List.lookup_eq_some_iff.mp expected
      have member : (record.className, functions) ∈
          records.map VtableRecord.entry := by
        rw [split]
        exact List.mem_append_right _ List.mem_cons_self
      obtain ⟨other, otherListed, isOther⟩ := List.mem_map.mp member
      rw [VtableRecord.entry, Prod.mk.injEq] at isOther
      rw [← isOther.2]
      exact agree other otherListed record listed isOther.1
    subst own
    rw [← same] at expected
    obtain ⟨_, _, split, _⟩ := List.lookup_eq_some_iff.mp expected
    have member : (record.className, record.functions) ∈ entries := by
      rw [split]
      exact List.mem_append_right _ List.mem_cons_self
    exact readings_pieces read _ member
  · intro whole
    exact ⟨_, readings_entries whole, fun _ => rfl⟩

end Reading

section RoundTrip

variable {demangle : Text → Option Text}

/-- The global variable of a virtual table. -/
def VtableGlobal.variable (global : VtableGlobal demangle) : GlobalVariable where
  name := global.name
  initializer := some (.array global.operands)

/-- The record of a virtual table. -/
def VtableGlobal.record (global : VtableGlobal demangle) : VtableRecord where
  className := global.className.text
  functions := namedFunctions global.operands

theorem VtableGlobal.record_oneLine (global : VtableGlobal demangle) :
    global.record.OneLine where
  noSharp := global.noSharp
  className := global.className.clear_newline
  functions := fun function listed => clear_iff.mpr (global.oneLine function listed)

/-- What is recorded of a virtual table. -/
theorem VtableGlobal.vtableInfo_eq (global : VtableGlobal demangle) :
    vtableInfo demangle global.variable = .ok (some global.record.text) := by
  have named : cxxDemangledName demangle global.name =
      "vtable for ".toList ++ global.className.text := by
    rw [@cxxDemangledName_thunk demangle global.name _ .method global.demangled
      global.noThunkWords]
    rfl
  have isVtable : ("_ZTV".toList.isPrefixOf global.name &&
      "vtable".toList.isPrefixOf
        ("vtable for ".toList ++ global.className.text)) = true := by
    rw [List.isPrefixOf_iff_prefix.mpr global.isVtable]
    exact List.isPrefixOf_iff_prefix.mpr ⟨" for ".toList ++ global.className.text, rfl⟩
  have long : 11 ≤ ("vtable for ".toList ++ global.className.text).length := by
    rw [List.length_append]
    exact Nat.le_add_right 11 _
  have behind : ("vtable for ".toList ++ global.className.text).drop 11 =
      global.className.text := List.drop_left' rfl
  have noNul : global.record.text.takeWhile (· != nul) = global.record.text := by
    refine List.takeWhile_eq_self_iff.mpr fun c inside => ?_
    have clear := global.record_oneLine.clear_text c inside
    rw [endsAt, Bool.or_eq_false_iff] at clear
    rw [bne, clear.1]
    rfl
  change vtableInfo demangle ⟨global.name, some (.array global.operands)⟩ = _
  simp only [vtableInfo, named, isVtable, if_true, if_pos long, behind]
  exact congrArg (fun text => Except.ok (some text)) noNul

/-- What is recorded of the virtual tables of a module. -/
theorem vtableInfos_eq (globals : List (VtableGlobal demangle)) :
    vtableInfos demangle (globals.map VtableGlobal.variable) =
      .ok ((globals.map VtableGlobal.record).map VtableRecord.text) := by
  induction globals with
  | nil => rfl
  | cons global rest inductionHypothesis =>
      rw [List.map_cons, vtableInfos, global.vtableInfo_eq]
      exact bind_eq_ok.mpr ⟨_, rfl, bind_eq_ok.mpr ⟨_, inductionHypothesis, rfl⟩⟩

/--
The class that the record of a constructor carries is its class exactly when the
backward scan can read the name of the constructor, and the name has no `#`.
-/
theorem ConstructorSymbol.constructorClass_iff (ctor : ConstructorSymbol demangle)
    (noSharp : '#' ∉ ctor.className) :
    constructorClass demangle ctor.linkageName = .ok ctor.className ↔
      Scannable ctor.text ∧ '#' ∉ ctor.text := by
  have named : cxxDemangledName demangle ctor.linkageName =
      ctor.className ++ ':' :: ':' :: ctor.text := by
    rw [@cxxDemangledName_thunk demangle ctor.linkageName _ .method ctor.demangled
      ctor.noThunkWords]
    rfl
  have nonempty : ctor.className ++ ':' :: ':' :: ctor.text ≠ [] :=
    List.append_ne_nil_of_right_ne_nil _ (List.cons_ne_nil _ _)
  simp only [constructorClass, named, if_neg nonempty]
  constructor
  · intro returned
    obtain ⟨split, isSplit, returned⟩ := bind_eq_ok.mp returned
    obtain ⟨before, colon, method, nameSplit, rfl, read⟩ :=
      splitMethodName_cases isSplit
    rcases clean_or_split '#' method with clean | ⟨front, back, rfl, clean⟩
    · simp only [findLastOf_append _ clean, pure_eq_ok, List.take_left'] at returned
      have nonempty : before ≠ [] := by
        rintro rfl
        have lengths := congrArg List.length returned
        simp [prefixBefore] at lengths
      obtain ⟨rfl, scannable⟩ := read nonempty
      have positive := List.length_pos_of_ne_nil nonempty
      have isClass : before.dropLast = ctor.className := by
        rw [← returned, prefixBefore, if_neg (by omega), nameSplit,
          List.take_append_of_le_length (Nat.sub_le _ _), ← List.dropLast_eq_take]
      have isText : method = ctor.text := by
        obtain ⟨start, last, rfl⟩ : ∃ start last, before = start ++ [last] :=
          ⟨_, _, (List.dropLast_concat_getLast nonempty).symm⟩
        rw [List.dropLast_concat] at isClass
        rw [isClass, List.append_assoc, List.append_cancel_left_eq] at nameSplit
        exact (List.cons.inj (List.cons.inj nameSplit).2).2.symm
      rw [← isText]
      exact ⟨scannable, fun inside => clean _ inside rfl⟩
    · -- the class would have a `#` in it
      have found := @findLastOf_append '#'
        (prefixBefore (ctor.className ++ ':' :: ':' :: ctor.text) before.length 1 ++
          '#' :: front) back clean
      rw [List.append_assoc, List.cons_append] at found
      simp only [found, pure_eq_ok] at returned
      refine absurd ?_ noSharp
      rw [← returned, ← List.cons_append, ← List.append_assoc, List.take_left' rfl]
      exact List.mem_append_right _ List.mem_cons_self
  · rintro ⟨scannable, clean⟩
    refine bind_eq_ok.mpr ⟨_, splitMethodName_eq_iff.mpr scannable, ?_⟩
    have found := @findLastOf_append '#' ctor.className ctor.text
      fun c listed isSharp => clean (isSharp ▸ listed)
    simp only [found, List.take_left']
    rfl

/-- The text of a constructor can be read, and no closure is in it. -/
def ConstructorSymbol.Readable (ctor : ConstructorSymbol demangle) : Prop :=
  Scannable ctor.text ∧ '#' ∉ ctor.text

/--
The records of the virtual tables are read as the map from their classes to their
functions, up to the end of the section and no further, and the constructors of their
classes carry the same names of classes.
-/
def VtablesSurvive (globals : List (VtableGlobal demangle))
    (ctors : List (ConstructorSymbol demangle)) (behind : Text) : Prop :=
  (∃ infos vtable,
    vtableInfos demangle (globals.map VtableGlobal.variable) = .ok infos ∧
      parseVtable (emitMCFIInfo infos) behind = .ok (vtable, behind) ∧
      ∀ className, dictFind vtable className =
        (globals.map fun global => global.record.entry).lookup className) ∧
  ∀ ctor ∈ ctors, ∀ global ∈ globals, ctor.className = global.className.text →
    constructorClass demangle ctor.linkageName = .ok global.className.text

/-- The table that is read has the first record of every class. -/
theorem legible_iff_parseVtable (globals : List (VtableGlobal demangle))
    (behind : Text) :
    (∃ infos vtable,
      vtableInfos demangle (globals.map VtableGlobal.variable) = .ok infos ∧
        parseVtable (emitMCFIInfo infos) behind = .ok (vtable, behind) ∧
        ∀ className, dictFind vtable className =
          (globals.map fun global => global.record.entry).lookup className) ↔
      Legible (globals.map VtableGlobal.record) := by
  have oneLine : ∀ record ∈ globals.map VtableGlobal.record, record.OneLine :=
    List.forall_mem_map.mpr fun global _ => global.record_oneLine
  have entriesAre : (globals.map VtableGlobal.record).map VtableRecord.entry =
      globals.map fun global => global.record.entry := List.map_map
  have lookups (entries : List (Text × List Text)) (className : Text) :
      dictFind (addEntries entries ∅) className = entries.lookup className := by
    rw [dictFind, addEntries, OrdDict.find_foldl_insertNew, OrdDict.find_empty,
      Option.none_or]
  rw [Legible, entriesAre]
  constructor
  · rintro ⟨infos, vtable, written, parsed, same⟩
    rw [vtableInfos_eq, Except.ok.injEq] at written
    rw [← written] at parsed
    obtain ⟨entries, read, rfl⟩ := (parseVtable_section oneLine vtable).mp parsed
    exact ⟨entries, read, fun className => (lookups entries className).symm.trans
      (same className)⟩
  · rintro ⟨entries, read, same⟩
    refine ⟨_, addEntries entries ∅, vtableInfos_eq globals,
      (parseVtable_section oneLine _).mpr ⟨entries, read, rfl⟩, fun className => ?_⟩
    rw [lookups]
    exact same className

/-- The demangler, on the virtual tables of two classes. -/
def demangleVtable (name : Text) : Option Text :=
  if name = "_ZTV1B".toList then some "vtable for B".toList
  else if name = "_ZTV1C".toList then some "vtable for C".toList
  else none

/-- A class with a virtual base and no virtual functions has a virtual table. -/
def baseOnlyVtable : VtableGlobal demangleVtable where
  name := "_ZTV1B".toList
  className := ⟨"B".toList, by decide⟩
  operands := [.other, .other, .other]
  isVtable := by decide
  demangled := by decide
  noThunkWords := by decide
  noSharp := by decide
  oneLine := fun _ never => nomatch never

/-- The virtual table of a class with one virtual function. -/
def oneFunctionVtable : VtableGlobal demangleVtable where
  name := "_ZTV1C".toList
  className := ⟨"C".toList, by decide⟩
  operands := [.other, .other, .cast .bitCast (.function "_ZN1C1fEv".toList)]
  isVtable := by decide
  demangled := by decide
  noThunkWords := by decide
  noSharp := by decide
  oneLine := by decide

end RoundTrip

end Mcfi
