import Mcfi.ClassSections
import Mcfi.Lib.InternPool
import Mcfi.Lib.RelatedDict
import Mcfi.VtableSections

namespace Mcfi

open InternPool

/-!
# Parsers that intern names

The runtime compares names by their pointers, so each parser interns every string it
keeps.  The parsers are given here with pointers and the string pool; those without
take the strings themselves for names, and each of these here follows that one.
-/

/-- The string pool; `strlen` bytes of a string are its key. -/
abbrev StringPool := InternPool Text

/-- A `char *` of the runtime: an element of the pool, or a literal. -/
inductive CharPtr where
  | pooled (handle : Nat)
  | literal (text : Text)
  deriving DecidableEq

/-- A call that may add strings to the pool. -/
abbrev Loading := StateT StringPool Rt

namespace Loading

/-- A part that leaves the pool alone. -/
def lift {α : Type} (call : Rt α) : Loading α :=
  StateT.lift call

/-- `sp_intern_string`. -/
def spInternString (string : Text) : Loading CharPtr := do
  let handle ← interning string
  return .pooled handle

/-- A loop `while (!stop)` whose body takes the next string first. -/
def whileNotStop {σ : Type} (symbol : Char) (body : Text → σ → Loading σ) :
    Nat → Text → σ → Loading (σ × Text)
  | 0, _, _ => lift (.error (.diverged "while (!stop)"))
  | fuel + 1, cursor, state => do
      let (string, stop, cursor) ← lift (getStringBeforeSymbol symbol cursor)
      let state ← body string state
      if stop then
        return (state, cursor)
      else
        whileNotStop symbol body fuel cursor state

/-- The loop of a parser over its section. -/
def sectionLoop {σ : Type} (function : String) (behind : Text)
    (body : Text → σ → Loading (σ × Text)) : Nat → Text → σ → Loading (σ × Text)
  | 0, _, _ => lift (.error (.diverged function))
  | fuel + 1, cursor, state =>
      if cursor.length ≤ behind.length then
        return (state, cursor)
      else do
        let (state, cursor) ← body cursor state
        sectionLoop function behind body fuel cursor state

/-- `parse_fats`, the body of its loop. -/
def parseFat (cursor : Text) (fats : KeySet CharPtr) :
    Loading (KeySet CharPtr × Text) := do
  let (string, _, cursor) ← lift (getStringBeforeSymbol nul cursor)
  let fat ← spInternString string
  if dictIn fats fat then
    return (fats, cursor)
  else do
    let fats ← lift (dictAdd fats fat ())
    return (fats, cursor)

/-- `parse_fats`. -/
def parseFats (content behind : Text) (fats : KeySet CharPtr) :
    Loading (KeySet CharPtr × Text) :=
  sectionLoop "parse_fats" behind parseFat (content.length + 1) (content ++ behind) fats

/-- `parse_aliases`, the body of its loop. -/
def parseAlias (cursor : Text) (aliases : LinkMap CharPtr CharPtr) :
    Loading (LinkMap CharPtr CharPtr × Text) := do
  let (string, _, cursor) ← lift (getStringBeforeSymbol ' ' cursor)
  let name ← spInternString string
  let (string, _, cursor) ← lift (getStringBeforeSymbol ' ' cursor)
  let aliasee ← spInternString string
  return (gAddEdge aliases name aliasee, cursor)

/-- `parse_aliases`. -/
def parseAliases (content behind : Text) (aliases : LinkMap CharPtr CharPtr) :
    Loading (LinkMap CharPtr CharPtr × Text) :=
  sectionLoop "parse_aliases" behind parseAlias (content.length + 1) (content ++ behind)
    aliases

/-- `_add_node_list`. -/
def addNodeList (symbol : Char) (list : Text) (nodes : List CharPtr) :
    Loading (List CharPtr) := do
  let (nodes, _) ← whileNotStop symbol
    (fun string nodes => do
      let name ← spInternString string
      return nodes ++ [name])
    (list.length + 1) (list ++ [nul]) nodes
  return nodes

end Loading

/-- `struct function_t`. -/
structure LoadedFunction where
  name : CharPtr
  className : Option CharPtr
  methodName : Option CharPtr
  type : Option CharPtr
  returns : List CharPtr
  dtails : List CharPtr
  itails : List CharPtr

/-- `alloc_function`, with the name it is given. -/
def allocLoadedFunction (name : CharPtr) : LoadedFunction where
  name := name
  className := none
  methodName := none
  type := none
  returns := []
  dtails := []
  itails := []

/-- What `parse_functions` fills, and the function it is in. -/
structure LoadedFunctions where
  functions : List LoadedFunction
  ctor : OrdDict CharPtr CharPtr
  current : Option LoadedFunction

/-- The function that the parser is in. -/
def LoadedFunctions.deref (tables : LoadedFunctions) : Rt LoadedFunction :=
  match tables.current with
  | some f => .ok f
  | none => .error (.nullDeref "parse_functions")

namespace Loading

/-- `parse_functions`, the switch of its inner loop. -/
def parseFunctionLine (cursor : Text) (tables : LoadedFunctions) :
    Loading (LoadedFunctions × Bool × Text) :=
  match cursor with
  | [] => lift (.error (.pageFault "parse_functions"))
  | tag :: rest =>
      let cursor := rest.drop 1
      match tag with
      | '\x7b' => do
          let (string, stop, cursor) ← lift (getStringBeforeSymbol newline cursor)
          let name ← spInternString string
          return ({ tables with current := some (allocLoadedFunction name) }, stop, cursor)
      | 'N' => do
          let (string, _, cursor) ← lift (getStringBeforeSymbol '#' cursor)
          let className ← spInternString string
          let (string, stop, cursor) ← lift (getStringBeforeSymbol newline cursor)
          let methodName ← spInternString string
          let f ← lift tables.deref
          return ({ tables with
            current := some { f with
              className := some className
              methodName := some methodName } }, stop, cursor)
      | 'D' => do
          let (string, stop, cursor) ← lift (getStringBeforeSymbol newline cursor)
          let className ← spInternString string
          let f ← lift tables.deref
          let methodName ← spInternString ['~']
          return ({ tables with
            current := some { f with
              className := some className
              methodName := some methodName } }, stop, cursor)
      | 'Y' => do
          let (string, stop, cursor) ← lift (getStringBeforeSymbol newline cursor)
          let type ← spInternString string
          let f ← lift tables.deref
          return ({ tables with current := some { f with type := some type } }, stop,
            cursor)
      | 'T' => do
          let (list, stop, cursor) ← lift (getStringBeforeSymbol newline cursor)
          let f ← lift tables.deref
          let nodes ← addNodeList ' ' list f.dtails
          return ({ tables with current := some { f with dtails := nodes } }, stop,
            cursor)
      | 'I' => do
          let (list, stop, cursor) ← lift (getStringBeforeSymbol newline cursor)
          let f ← lift tables.deref
          let nodes ← addNodeList ' ' list f.itails
          return ({ tables with current := some { f with itails := nodes } }, stop,
            cursor)
      | 'R' => do
          let (list, stop, cursor) ← lift (getStringBeforeSymbol newline cursor)
          let f ← lift tables.deref
          let nodes ← addNodeList ' ' list f.returns
          return ({ tables with current := some { f with returns := nodes } }, stop,
            cursor)
      | 'C' => do
          let f ← lift tables.deref
          let (string, stop, cursor) ← lift (getStringBeforeSymbol newline cursor)
          let ctorName ← spInternString string
          let ctor ←
            if dictIn tables.ctor f.name then pure tables.ctor
            else lift (dictAdd tables.ctor f.name ctorName)
          return ({ tables with ctor := ctor }, stop, cursor)
      | '\x7d' => do
          let f ← lift tables.deref
          return ({ tables with
            functions := tables.functions ++ [f]
            current := none }, true, cursor)
      | _ => lift (.error (.quit "Functions parsing failed at %lu\n"))

/-- `parse_functions`, its inner loop. -/
def parseFunctionLines : Nat → Text → LoadedFunctions → Loading (LoadedFunctions × Text)
  | 0, _, _ => lift (.error (.diverged "parse_functions"))
  | fuel + 1, cursor, tables => do
      let (tables, stop, cursor) ← parseFunctionLine cursor tables
      if stop then
        return (tables, cursor)
      else
        parseFunctionLines fuel cursor tables

/-- `parse_functions`. -/
def parseFunctions (content behind : Text) (functions : List LoadedFunction)
    (ctor : OrdDict CharPtr CharPtr) : Loading (LoadedFunctions × Text) :=
  sectionLoop "parse_functions" behind
    (fun cursor tables => parseFunctionLines (cursor.length + 1) cursor tables)
    (content.length + 1) (content ++ behind) ⟨functions, ctor, none⟩

end Loading

/-- The kind of an indirect call, with the fields that the parser sets for it. -/
inductive LoadedIcfType where
  | virtualMethodCall (className methodName : CharPtr)
  | pointerToMethodCall (className : CharPtr) (attrs : UInt8) (type : CharPtr)
  | normalCall (type : CharPtr)

/-- `struct icf_t`. -/
structure LoadedIcf where
  id : CharPtr
  ity : LoadedIcfType

/-- What `parse_cha` fills. -/
structure LoadedClasses where
  classes : OrdDict CharPtr (OrdDict CharPtr UInt8)
  cha : LinkMap CharPtr CharPtr

namespace Loading

/-- `parse_icfs`, the switch of its loop. -/
def parseIcfType (cursor : Text) : Loading (LoadedIcfType × Text) :=
  match cursor with
  | [] => lift (.error (.pageFault "parse_icfs"))
  | tag :: rest =>
      let cursor := rest.drop 1
      match tag with
      | 'V' => do
          let (string, _, cursor) ← lift (getStringBeforeSymbol '#' cursor)
          let className ← spInternString string
          let (string, _, cursor) ← lift (getStringBeforeSymbol '#' cursor)
          let methodName ← spInternString string
          return (.virtualMethodCall className methodName, cursor)
      | 'D' => do
          let (string, _, cursor) ← lift (getStringBeforeSymbol '#' cursor)
          let className ← spInternString string
          let methodName ← spInternString ['~']
          return (.virtualMethodCall className methodName, cursor)
      | 'P' => do
          let (string, _, cursor) ← lift (getStringBeforeSymbol '#' cursor)
          let className ← spInternString string
          let (co, _, cursor) ← lift (getStringBeforeSymbol '#' cursor)
          let (string, _, cursor) ← lift (getStringBeforeSymbol '#' cursor)
          let type ← spInternString string
          return (.pointerToMethodCall className (pointerAttrs co) type, cursor)
      | 'N' => do
          let (string, _, cursor) ← lift (getStringBeforeSymbol '#' cursor)
          let type ← spInternString string
          return (.normalCall type, cursor)
      | _ => lift (.error (.quit "ICF parsing failed at %lu\n"))

/-- `parse_icfs`, the body of its loop. -/
def parseIcf (cursor : Text) (icfs : List LoadedIcf) : Loading (List LoadedIcf × Text) := do
  let (string, _, cursor) ← lift (getStringBeforeSymbol '#' cursor)
  let id ← spInternString string
  let (ity, cursor) ← parseIcfType cursor
  return (icfs ++ [⟨id, ity⟩], cursor)

/-- `parse_icfs`. -/
def parseIcfs (content behind : Text) (icfs : List LoadedIcf) :
    Loading (List LoadedIcf × Text) :=
  sectionLoop "parse_icfs" behind parseIcf (content.length + 1) (content ++ behind) icfs

/-- `parse_inheritance`. -/
def parseInheritance (cursor : Text) (cha : LinkMap CharPtr CharPtr) :
    Loading (LinkMap CharPtr CharPtr × Text) := do
  let (string, stop, cursor) ← lift (getStringBeforeSymbol '#' cursor)
  let subClass ← spInternString string
  if stop then
    return (cha, cursor)
  else
    whileNotStop '#'
      (fun string cha => do
        let superClass ← spInternString string
        return gAddEdge cha subClass superClass)
      cursor.length cursor cha

/-- `parse_classes`, the body of its loop. -/
def addMethod (className : CharPtr) (string : Text)
    (classes : OrdDict CharPtr (OrdDict CharPtr UInt8)) :
    Loading (OrdDict CharPtr (OrdDict CharPtr UInt8)) := do
  let (name, attrs) ← lift (getCppMethodAttr string)
  let methodName ← spInternString name
  let methods := (dictFind classes className).getD ∅
  match dictFind methods methodName with
  | none => do
      let methods ← lift (dictAdd methods methodName attrs)
      return classes.modify className fun _ => methods
  | some old =>
      if old ≠ attrs then
        lift (.error (.quit "Duplicated method name %s in class %s\n"))
      else
        return classes

/-- `parse_classes`. -/
def parseClasses (cursor : Text) (classes : OrdDict CharPtr (OrdDict CharPtr UInt8)) :
    Loading (OrdDict CharPtr (OrdDict CharPtr UInt8) × Text) := do
  let (string, stop, cursor) ← lift (getStringBeforeSymbol '#' cursor)
  let className ← spInternString string
  let classes ←
    if dictIn classes className then pure classes
    else lift (dictAdd classes className ∅)
  if stop then
    return (classes, cursor)
  else
    whileNotStop '#' (addMethod className) cursor.length cursor classes

/-- `parse_cha`, the switch of its loop. -/
def parseChaRecord (cursor : Text) (tables : LoadedClasses) :
    Loading (LoadedClasses × Text) :=
  match cursor with
  | 'I' :: cursor => do
      let (cha, cursor) ← parseInheritance (cursor.drop 1) tables.cha
      return ({ tables with cha := cha }, cursor)
  | 'M' :: cursor => do
      let (classes, cursor) ← parseClasses (cursor.drop 1) tables.classes
      return ({ tables with classes := classes }, cursor)
  | _ => lift (.error (.quit "Invalid cha info at offset %ld, %s\n"))

/-- `parse_cha`. -/
def parseCha (content behind : Text) (tables : LoadedClasses) :
    Loading (LoadedClasses × Text) :=
  sectionLoop "parse_cha" behind parseChaRecord (content.length + 1) (content ++ behind)
    tables

/-- `parse_vtable`, the body of its loop. -/
def parseVtableEntry (cursor : Text) (vtable : OrdDict CharPtr (List CharPtr)) :
    Loading (OrdDict CharPtr (List CharPtr) × Text) := do
  let (string, _, cursor) ← lift (getStringBeforeSymbol '#' cursor)
  let ctorName ← spInternString string
  let (list, _, cursor) ← lift (getStringBeforeSymbol newline cursor)
  let vmtd ← addNodeList '#' list []
  match dictFind vtable ctorName with
  | none => do
      let vtable ← lift (dictAdd vtable ctorName vmtd)
      return (vtable, cursor)
  | some _ => return (vtable, cursor)

/-- `parse_vtable`. -/
def parseVtable (content behind : Text) (vtable : OrdDict CharPtr (List CharPtr)) :
    Loading (OrdDict CharPtr (List CharPtr) × Text) :=
  sectionLoop "parse_vtable" behind parseVtableEntry (content.length + 1)
    (content ++ behind) vtable

end Loading

/-!
## The same loops over strings
-/

/-- The loop of a parser over its section, without a pool. -/
def sectionLoop {σ : Type} (function : String) (behind : Text)
    (body : Text → σ → Rt (σ × Text)) : Nat → Text → σ → Rt (σ × Text)
  | 0, _, _ => .error (.diverged function)
  | fuel + 1, cursor, state =>
      if cursor.length ≤ behind.length then
        return (state, cursor)
      else do
        let (state, cursor) ← body cursor state
        sectionLoop function behind body fuel cursor state

/-- `parse_fats` with strings for names, the body of its loop. -/
def parseFat (cursor : Text) (fats : KeySet Text) : Rt (KeySet Text × Text) := do
  let (fat, _, cursor) ← getStringBeforeSymbol nul cursor
  if dictIn fats fat then
    return (fats, cursor)
  else do
    let fats ← dictAdd fats fat ()
    return (fats, cursor)

/-- `parse_fats` with strings for names. -/
def parseFats (content behind : Text) (fats : KeySet Text) : Rt (KeySet Text × Text) :=
  sectionLoop "parse_fats" behind parseFat (content.length + 1) (content ++ behind) fats

/-- `parse_aliases` with strings for names, the body of its loop. -/
def parseAlias (cursor : Text) (aliases : LinkMap Text Text) :
    Rt (LinkMap Text Text × Text) := do
  let (name, _, cursor) ← getStringBeforeSymbol ' ' cursor
  let (aliasee, _, cursor) ← getStringBeforeSymbol ' ' cursor
  return (gAddEdge aliases name aliasee, cursor)

/-- `parse_aliases` with strings for names. -/
def parseAliases (content behind : Text) (aliases : LinkMap Text Text) :
    Rt (LinkMap Text Text × Text) :=
  sectionLoop "parse_aliases" behind parseAlias (content.length + 1) (content ++ behind)
    aliases

/-- `parse_icfs` with strings for names, the body of its loop. -/
def parseIcf (cursor : Text) (icfs : List ParsedIcf) : Rt (List ParsedIcf × Text) := do
  let (id, _, cursor) ← getStringBeforeSymbol '#' cursor
  let (ity, cursor) ← parseIcfType cursor
  return (icfs ++ [⟨id, ity⟩], cursor)

theorem parseFunctions_loop_eq (behind : Text) :
    parseFunctions.loop behind =
      sectionLoop "parse_functions" behind fun cursor tables =>
        parseFunctionLines (cursor.length + 1) cursor tables := by
  funext fuel
  induction fuel with
  | zero => rfl
  | succ fuel inductionHypothesis =>
      funext cursor tables
      rw [parseFunctions.loop, inductionHypothesis]
      rfl

theorem parseCha_loop_eq (behind : Text) :
    parseCha.loop behind = sectionLoop "parse_cha" behind parseChaRecord := by
  funext fuel
  induction fuel with
  | zero => rfl
  | succ fuel inductionHypothesis =>
      funext cursor tables
      rw [parseCha.loop, inductionHypothesis]
      rfl

theorem parseVtable_loop_eq (behind : Text) :
    parseVtable.loop behind = sectionLoop "parse_vtable" behind parseVtableEntry := by
  funext fuel
  induction fuel with
  | zero => rfl
  | succ fuel inductionHypothesis =>
      funext cursor vtable
      rw [parseVtable.loop, inductionHypothesis]
      rfl

theorem parseIcfs_loop_eq (behind : Text) :
    parseIcfs.loop behind = sectionLoop "parse_icfs" behind parseIcf := by
  funext fuel
  induction fuel with
  | zero => rfl
  | succ fuel inductionHypothesis =>
      funext cursor icfs
      rw [parseIcfs.loop, inductionHypothesis]
      rw [sectionLoop, parseIcf, bind_assoc]
      split
      next => rfl
      next =>
        congr 1
        funext first
        rw [bind_assoc]
        rfl

/-!
## Names
-/

/-- A pointer is the pool's element for a string. -/
def Names (pool : StringPool) (ptr : CharPtr) (text : Text) : Prop :=
  ∃ handle, ptr = .pooled handle ∧ pool.Holds handle text

/-- Elements of the pool and strings are one-to-one. -/
theorem biUnique_names (pool : StringPool) : Relator.BiUnique (Names pool) := by
  constructor
  · rintro first second text ⟨handle, rfl, firstHolds⟩ ⟨other, rfl, secondHolds⟩
    rw [(biUnique_holds pool).1 firstHolds secondHolds]
  · rintro ptr first second ⟨handle, rfl, firstHolds⟩ ⟨other, same, secondHolds⟩
    cases same
    exact (biUnique_holds pool).2 firstHolds secondHolds

theorem Names.extend {pool later : StringPool} {ptr : CharPtr} {text : Text}
    (names : Names pool ptr text) (grows : pool.Extends later) : Names later ptr text := by
  obtain ⟨handle, same, holds⟩ := names
  exact ⟨handle, same, holds.extend grows⟩

section Rules

variable {pool : StringPool} {σ τ β γ : Type}

/-- The rest of a parser gets the pointer for a string. -/
theorem follows_spInternString {string : Text} {next : CharPtr → Loading β} {spec : Rt γ}
    {related : StringPool → β → γ → Prop}
    (rest : ∀ later ptr, pool.Extends later → Names later ptr string →
      Follows later (next ptr) spec related) :
    Follows pool (Loading.spInternString string >>= next) spec related := by
  unfold Loading.spInternString
  rw [bind_assoc]
  apply Follows.intern_bind
  intro later handle grows holds
  exact rest later _ grows ⟨handle, rfl, holds⟩

/-- The state of a loop is related, and the cursor is the same. -/
def Beside (related : StringPool → σ → τ → Prop) (pool : StringPool) (first : σ × Text)
    (second : τ × Text) : Prop :=
  related pool first.1 second.1 ∧ first.2 = second.2

/-- A loop over strings follows when its body does. -/
theorem follows_whileNotStop {symbol : Char} {body : Text → σ → Loading σ}
    {specBody : Text → τ → Rt τ} {related : StringPool → σ → τ → Prop}
    (bodies : ∀ later string state other, pool.Extends later → related later state other →
      Follows later (body string state) (specBody string other) related)
    (fuel : Nat) (cursor : Text) {state : σ} {other : τ} (initial : related pool state other) :
    Follows pool (Loading.whileNotStop symbol body fuel cursor state)
      (whileNotStop symbol specBody fuel cursor other) (Beside related) := by
  induction fuel generalizing pool cursor state other with
  | zero => exact Follows.stop _
  | succ fuel inductionHypothesis =>
      rw [Loading.whileNotStop, whileNotStop]
      apply Follows.lift_bind_same
      rintro ⟨string, stop, cursor⟩
      apply Follows.bind (bodies pool string state other (InternPool.Extends.refl pool) initial)
      intro later state other grows kept
      cases stop with
      | true => exact Follows.pure ⟨kept, rfl⟩
      | false =>
          apply inductionHypothesis _ _ kept
          intro last string state other growsMore
          exact bodies last string state other (grows.trans growsMore)

/-- The loop over a section follows when its body does. -/
theorem follows_sectionLoop {function : String} {behind : Text}
    {body : Text → σ → Loading (σ × Text)} {specBody : Text → τ → Rt (τ × Text)}
    {related : StringPool → σ → τ → Prop}
    (bodies : ∀ later cursor state other, pool.Extends later → related later state other →
      Follows later (body cursor state) (specBody cursor other) (Beside related))
    (fuel : Nat) (cursor : Text) {state : σ} {other : τ} (initial : related pool state other) :
    Follows pool (Loading.sectionLoop function behind body fuel cursor state)
      (sectionLoop function behind specBody fuel cursor other) (Beside related) := by
  induction fuel generalizing pool cursor state other with
  | zero => exact Follows.stop _
  | succ fuel inductionHypothesis =>
      rw [Loading.sectionLoop, sectionLoop]
      split
      next => exact Follows.pure ⟨initial, rfl⟩
      next =>
        apply Follows.bind (bodies pool cursor state other (InternPool.Extends.refl pool) initial)
        rintro later ⟨state, cursor⟩ ⟨other, otherCursor⟩ grows ⟨kept, same⟩
        cases same
        apply inductionHypothesis _ _ kept
        intro last cursor state other growsMore
        exact bodies last cursor state other (grows.trans growsMore)

variable {ν μ : Type} {values : ν → μ → Prop}

/-- Related dictionaries have related keys. -/
theorem dictIn_eq {first : OrdDict CharPtr ν} {second : OrdDict Text μ}
    (related : OrdDict.Related (Names pool) values first second) {ptr : CharPtr} {text : Text}
    (names : Names pool ptr text) : dictIn first ptr = dictIn second text := by
  rw [Bool.eq_iff_iff, dictIn_iff, dictIn_iff]
  exact related.mem_iff (biUnique_names pool) names

/-- `dict_add` returns on both sides, with related dictionaries. -/
theorem dictAdd_related {first result : OrdDict CharPtr ν} {second : OrdDict Text μ}
    (related : OrdDict.Related (Names pool) values first second) {ptr : CharPtr} {text : Text}
    (names : Names pool ptr text) {value : ν} {other : μ} (pair : values value other)
    (added : dictAdd first ptr value = .ok result) :
    ∃ otherResult, dictAdd second text other = .ok otherResult ∧
      OrdDict.Related (Names pool) values result otherResult := by
  obtain ⟨fresh, rfl⟩ := dictAdd_eq_ok.mp added
  have otherFresh := mt (related.mem_iff (biUnique_names pool) names).mpr fresh
  exact ⟨_, dictAdd_eq_ok.mpr ⟨otherFresh, rfl⟩,
    related.insertNew (biUnique_names pool) names pair⟩

end Rules

section Tables

variable {pool later : StringPool}

/-- A set of names. -/
def NameSets (pool : StringPool) : KeySet CharPtr → KeySet Text → Prop :=
  OrdDict.Related (Names pool) fun _ _ => True

/-- A graph of names. -/
def NameGraphs (pool : StringPool) : LinkMap CharPtr CharPtr → LinkMap Text Text → Prop :=
  LinkMap.Related (Names pool) (Names pool)

/-- A list of names. -/
def NameLists (pool : StringPool) : List CharPtr → List Text → Prop :=
  List.Forall₂ (Names pool)

/-- A name that may be missing. -/
def MaybeNames (pool : StringPool) : Option CharPtr → Option Text → Prop :=
  Option.Rel (Names pool)

private theorem optionRel_imp {α β : Type} {few more : α → β → Prop} {first : Option α}
    {second : Option β} (grows : ∀ value other, few value other → more value other)
    (related : Option.Rel few first second) : Option.Rel more first second := by
  cases related with
  | none => exact Option.Rel.none
  | some pair => exact Option.Rel.some (grows _ _ pair)

theorem NameSets.extend {first : KeySet CharPtr} {second : KeySet Text}
    (related : NameSets pool first second) (grows : pool.Extends later) :
    NameSets later first second :=
  OrdDict.Related.mono related (fun _ _ names => names.extend grows) fun _ _ => id

theorem NameGraphs.extend {first : LinkMap CharPtr CharPtr} {second : LinkMap Text Text}
    (related : NameGraphs pool first second) (grows : pool.Extends later) :
    NameGraphs later first second :=
  OrdDict.Related.mono related (fun _ _ names => names.extend grows)
    fun _ _ targets => NameSets.extend targets grows

theorem NameLists.extend {first : List CharPtr} {second : List Text}
    (related : NameLists pool first second) (grows : pool.Extends later) :
    NameLists later first second :=
  List.Forall₂.imp (fun _ _ names => Names.extend names grows) related

theorem MaybeNames.extend {first : Option CharPtr} {second : Option Text}
    (related : MaybeNames pool first second) (grows : pool.Extends later) :
    MaybeNames later first second :=
  optionRel_imp (fun _ _ names => names.extend grows) related

theorem NameLists.push {first : List CharPtr} {second : List Text} {ptr : CharPtr}
    {text : Text} (related : NameLists pool first second) (names : Names pool ptr text) :
    NameLists pool (first ++ [ptr]) (second ++ [text]) :=
  List.rel_append related (List.Forall₂.cons names List.Forall₂.nil)

end Tables

section Parsers

variable {pool : StringPool}

theorem follows_parseFat (cursor : Text) {fats : KeySet CharPtr} {texts : KeySet Text}
    (related : NameSets pool fats texts) :
    Follows pool (Loading.parseFat cursor fats) (parseFat cursor texts) (Beside NameSets) := by
  unfold Loading.parseFat parseFat
  apply Follows.lift_bind_same
  rintro ⟨string, stop, cursor⟩
  apply follows_spInternString
  intro later ptr grows names
  have kept := related.extend grows
  dsimp only
  rw [dictIn_eq kept names]
  split
  next => exact Follows.pure ⟨kept, rfl⟩
  next =>
    apply Follows.lift_bind
    intro result added
    obtain ⟨other, otherAdded, resultRelated⟩ := dictAdd_related kept names trivial added
    exact ⟨other, otherAdded, Follows.pure ⟨resultRelated, rfl⟩⟩

/-- `parse_fats` on pointers does what it does on strings. -/
theorem follows_parseFats (content behind : Text) {fats : KeySet CharPtr}
    {texts : KeySet Text} (related : NameSets pool fats texts) :
    Follows pool (Loading.parseFats content behind fats) (parseFats content behind texts)
      (Beside NameSets) :=
  follows_sectionLoop (fun _ cursor _ _ _ kept => follows_parseFat cursor kept) _ _ related

theorem follows_parseAlias (cursor : Text) {aliases : LinkMap CharPtr CharPtr}
    {texts : LinkMap Text Text} (related : NameGraphs pool aliases texts) :
    Follows pool (Loading.parseAlias cursor aliases) (parseAlias cursor texts)
      (Beside NameGraphs) := by
  unfold Loading.parseAlias parseAlias
  apply Follows.lift_bind_same
  rintro ⟨nameText, _, cursor⟩
  apply follows_spInternString
  intro middle name grows names
  apply Follows.lift_bind_same
  rintro ⟨aliaseeText, _, cursor⟩
  apply follows_spInternString
  intro later aliasee growsMore aliaseeNames
  apply Follows.pure
  exact ⟨LinkMap.Related.join (biUnique_names later)
    (NameGraphs.extend related (grows.trans growsMore)) (names.extend growsMore) aliaseeNames,
    rfl⟩

/-- `parse_aliases` on pointers does what it does on strings. -/
theorem follows_parseAliases (content behind : Text) {aliases : LinkMap CharPtr CharPtr}
    {texts : LinkMap Text Text} (related : NameGraphs pool aliases texts) :
    Follows pool (Loading.parseAliases content behind aliases)
      (parseAliases content behind texts) (Beside NameGraphs) :=
  follows_sectionLoop (fun _ cursor _ _ _ kept => follows_parseAlias cursor kept) _ _ related

/-- A string becomes the last name of a list. -/
private theorem follows_pushName (string : Text) {nodes : List CharPtr} {texts : List Text}
    (related : NameLists pool nodes texts) :
    Follows pool
      (do
        let name ← Loading.spInternString string
        return nodes ++ [name])
      (.ok (texts ++ [string])) NameLists := by
  apply follows_spInternString
  intro later ptr grows names
  exact Follows.pure ((related.extend grows).push names)

theorem follows_addNodeList (symbol : Char) (list : Text) {nodes : List CharPtr}
    {texts : List Text} (related : NameLists pool nodes texts) :
    Follows pool (Loading.addNodeList symbol list nodes) (addNodesBetween symbol list texts)
      NameLists := by
  unfold Loading.addNodeList addNodesBetween
  apply Follows.bind
    (follows_whileNotStop (fun _ string _ _ _ kept => follows_pushName string kept) _ _ related)
  rintro later ⟨nodes, cursor⟩ ⟨texts, otherCursor⟩ _ ⟨kept, -⟩
  exact Follows.pure kept

end Parsers

/-- A function record with its names. -/
structure LoadedFunction.NamedAs (pool : StringPool) (f : LoadedFunction)
    (parsed : ParsedFunction) : Prop where
  name : Names pool f.name parsed.name
  className : MaybeNames pool f.className parsed.className
  methodName : MaybeNames pool f.methodName parsed.methodName
  type : MaybeNames pool f.type parsed.type
  returns : NameLists pool f.returns parsed.returns
  dtails : NameLists pool f.dtails parsed.dtails
  itails : NameLists pool f.itails parsed.itails

/-- The tables of `parse_functions` with their names. -/
structure LoadedFunctions.NamedAs (pool : StringPool) (tables : LoadedFunctions)
    (parsed : FunctionTables) : Prop where
  functions : List.Forall₂ (LoadedFunction.NamedAs pool) tables.functions parsed.functions
  ctor : OrdDict.Related (Names pool) (Names pool) tables.ctor parsed.ctor
  current : Option.Rel (LoadedFunction.NamedAs pool) tables.current parsed.current

section Functions

variable {pool later : StringPool}

theorem LoadedFunction.NamedAs.extend {f : LoadedFunction} {parsed : ParsedFunction}
    (named : f.NamedAs pool parsed) (grows : pool.Extends later) : f.NamedAs later parsed where
  name := named.name.extend grows
  className := named.className.extend grows
  methodName := named.methodName.extend grows
  type := named.type.extend grows
  returns := named.returns.extend grows
  dtails := named.dtails.extend grows
  itails := named.itails.extend grows

theorem LoadedFunctions.NamedAs.extend {tables : LoadedFunctions} {parsed : FunctionTables}
    (named : tables.NamedAs pool parsed) (grows : pool.Extends later) :
    tables.NamedAs later parsed where
  functions := named.functions.imp fun _ _ function => function.extend grows
  ctor := named.ctor.mono (fun _ _ names => names.extend grows)
    fun _ _ names => names.extend grows
  current := optionRel_imp (fun _ _ function => function.extend grows) named.current

/-- The function that both parsers are in. -/
theorem LoadedFunctions.NamedAs.deref {tables : LoadedFunctions} {parsed : FunctionTables}
    (named : tables.NamedAs pool parsed) {f : LoadedFunction} (found : tables.deref = .ok f) :
    ∃ other, parsed.deref = .ok other ∧ f.NamedAs pool other := by
  obtain ⟨-, -, currents⟩ := named
  unfold LoadedFunctions.deref at found
  unfold FunctionTables.deref
  generalize tables.current = current at currents found
  generalize parsed.current = other at currents
  cases currents with
  | none => exact nomatch found
  | some function =>
      cases found
      exact ⟨_, rfl, function⟩

/-- A function record that has its name only. -/
theorem namedAs_alloc {ptr : CharPtr} {text : Text} (names : Names pool ptr text) :
    (allocLoadedFunction ptr).NamedAs pool (allocFunction text) where
  name := names
  className := Option.Rel.none
  methodName := Option.Rel.none
  type := Option.Rel.none
  returns := List.Forall₂.nil
  dtails := List.Forall₂.nil
  itails := List.Forall₂.nil

/-- What a line leaves: the tables, whether a NUL was met, and the cursor. -/
def AfterLine (pool : StringPool) (first : LoadedFunctions × Bool × Text)
    (second : FunctionTables × Bool × Text) : Prop :=
  first.1.NamedAs pool second.1 ∧ first.2 = second.2

/-- Another record for the function that the parser is in. -/
private theorem afterLine_current {tables : LoadedFunctions} {parsed : FunctionTables}
    (named : tables.NamedAs pool parsed) {f : LoadedFunction} {other : ParsedFunction}
    (function : f.NamedAs pool other) (left : Bool × Text) :
    AfterLine pool ({ tables with current := some f }, left)
      ({ parsed with current := some other }, left) :=
  ⟨⟨named.functions, named.ctor, Option.Rel.some function⟩, rfl⟩

/-- A list of names in the record of the function. -/
private theorem follows_nodes {tables : LoadedFunctions} {parsed : FunctionTables}
    (named : tables.NamedAs pool parsed) (cursor : Text)
    {set : LoadedFunction → List CharPtr → LoadedFunction}
    {get : LoadedFunction → List CharPtr}
    {setText : ParsedFunction → List Text → ParsedFunction}
    {getText : ParsedFunction → List Text}
    (gets : ∀ later f other, f.NamedAs later other → NameLists later (get f) (getText other))
    (sets : ∀ later f other nodes texts, f.NamedAs later other →
      NameLists later nodes texts → (set f nodes).NamedAs later (setText other texts)) :
    Follows pool
      (do
        let (list, stop, cursor) ← Loading.lift (getStringBeforeSymbol newline cursor)
        let f ← Loading.lift tables.deref
        let nodes ← Loading.addNodeList ' ' list (get f)
        return ({ tables with current := some (set f nodes) }, stop, cursor))
      (do
        let (list, stop, cursor) ← getStringBeforeSymbol newline cursor
        let f ← parsed.deref
        let nodes ← addNodeList list (getText f)
        return ({ parsed with current := some (setText f nodes) }, stop, cursor))
      AfterLine := by
  apply Follows.lift_bind_same
  rintro ⟨list, stop, cursor⟩
  apply Follows.lift_bind
  intro f found
  obtain ⟨other, otherFound, function⟩ := named.deref found
  refine ⟨other, otherFound, ?_⟩
  apply Follows.bind (follows_addNodeList ' ' list (gets pool f other function))
  intro later nodes texts grows nodesNamed
  apply Follows.pure
  exact afterLine_current (named.extend grows)
    (sets later f other nodes texts (function.extend grows) nodesNamed) _

theorem follows_parseFunctionLine (cursor : Text) {tables : LoadedFunctions}
    {parsed : FunctionTables} (named : tables.NamedAs pool parsed) :
    Follows pool (Loading.parseFunctionLine cursor tables) (parseFunctionLine cursor parsed)
      AfterLine := by
  unfold Loading.parseFunctionLine parseFunctionLine
  split
  next => exact Follows.stop _
  next tag rest =>
    dsimp only
    split
    next =>
      apply Follows.lift_bind_same
      rintro ⟨string, stop, cursor⟩
      apply follows_spInternString
      intro later name grows names
      exact Follows.pure (afterLine_current (named.extend grows) (namedAs_alloc names) _)
    next =>
      apply Follows.lift_bind_same
      rintro ⟨classText, _, cursor⟩
      apply follows_spInternString
      intro middle className grows classNames
      apply Follows.lift_bind_same
      rintro ⟨methodText, stop, cursor⟩
      apply follows_spInternString
      intro later methodName growsMore methodNames
      have kept := (named.extend grows).extend growsMore
      apply Follows.lift_bind
      intro f found
      obtain ⟨other, otherFound, function⟩ := kept.deref found
      refine ⟨other, otherFound, Follows.pure (afterLine_current kept ?_ _)⟩
      exact { function with
        className := Option.Rel.some (classNames.extend growsMore)
        methodName := Option.Rel.some methodNames }
    next =>
      apply Follows.lift_bind_same
      rintro ⟨classText, stop, cursor⟩
      apply follows_spInternString
      intro middle className grows classNames
      apply Follows.lift_bind
      intro f found
      obtain ⟨other, otherFound, function⟩ := (named.extend grows).deref found
      refine ⟨other, otherFound, ?_⟩
      apply follows_spInternString
      intro later methodName growsMore methodNames
      refine Follows.pure
        (afterLine_current ((named.extend grows).extend growsMore) ?_ _)
      exact { function.extend growsMore with
        className := Option.Rel.some (classNames.extend growsMore)
        methodName := Option.Rel.some methodNames }
    next =>
      apply Follows.lift_bind_same
      rintro ⟨typeText, stop, cursor⟩
      apply follows_spInternString
      intro later type grows typeNames
      have kept := named.extend grows
      apply Follows.lift_bind
      intro f found
      obtain ⟨other, otherFound, function⟩ := kept.deref found
      refine ⟨other, otherFound, Follows.pure (afterLine_current kept ?_ _)⟩
      exact { function with type := Option.Rel.some typeNames }
    next =>
      exact follows_nodes named _ (fun _ _ _ function => function.dtails)
        fun _ _ _ _ _ function nodes => { function with dtails := nodes }
    next =>
      exact follows_nodes named _ (fun _ _ _ function => function.itails)
        fun _ _ _ _ _ function nodes => { function with itails := nodes }
    next =>
      exact follows_nodes named _ (fun _ _ _ function => function.returns)
        fun _ _ _ _ _ function nodes => { function with returns := nodes }
    next =>
      apply Follows.lift_bind
      intro f found
      obtain ⟨other, otherFound, function⟩ := named.deref found
      refine ⟨other, otherFound, ?_⟩
      apply Follows.lift_bind_same
      rintro ⟨ctorText, stop, cursor⟩
      apply follows_spInternString
      intro later ctorName grows ctorNames
      have kept := named.extend grows
      have function := function.extend grows
      dsimp only
      rw [dictIn_eq kept.ctor function.name]
      split
      next =>
        rw [pure_bind, pure_bind]
        exact Follows.pure ⟨kept, rfl⟩
      next =>
        apply Follows.lift_bind
        intro ctor added
        obtain ⟨otherCtor, otherAdded, ctorRelated⟩ :=
          dictAdd_related kept.ctor function.name ctorNames added
        exact ⟨otherCtor, otherAdded,
          Follows.pure ⟨⟨kept.functions, ctorRelated, kept.current⟩, rfl⟩⟩
    next =>
      apply Follows.lift_bind
      intro f found
      obtain ⟨other, otherFound, function⟩ := named.deref found
      refine ⟨other, otherFound, Follows.pure ⟨⟨?_, named.ctor, Option.Rel.none⟩, rfl⟩⟩
      exact List.rel_append named.functions (List.Forall₂.cons function List.Forall₂.nil)
    next => exact Follows.stop _

theorem follows_parseFunctionLines (fuel : Nat) (cursor : Text) {tables : LoadedFunctions}
    {parsed : FunctionTables} (named : tables.NamedAs pool parsed) :
    Follows pool (Loading.parseFunctionLines fuel cursor tables)
      (parseFunctionLines fuel cursor parsed) (Beside LoadedFunctions.NamedAs) := by
  induction fuel generalizing pool cursor tables parsed with
  | zero => exact Follows.stop _
  | succ fuel inductionHypothesis =>
      rw [Loading.parseFunctionLines, parseFunctionLines]
      apply Follows.bind (follows_parseFunctionLine cursor named)
      rintro later ⟨tables, stop, cursor⟩ ⟨parsed, _, _⟩ _ ⟨kept, same⟩
      cases same
      dsimp only
      split
      next => exact Follows.pure ⟨kept, rfl⟩
      next => exact inductionHypothesis cursor kept

/-- `parse_functions` on pointers does what it does on strings. -/
theorem follows_parseFunctions (content behind : Text) {functions : List LoadedFunction}
    {ctor : OrdDict CharPtr CharPtr} {parsed : List ParsedFunction} {parsedCtor : OrdDict Text Text}
    (functionsNamed : List.Forall₂ (LoadedFunction.NamedAs pool) functions parsed)
    (ctorNamed : OrdDict.Related (Names pool) (Names pool) ctor parsedCtor) :
    Follows pool (Loading.parseFunctions content behind functions ctor)
      (parseFunctions.loop behind (content.length + 1) (content ++ behind)
        ⟨parsed, parsedCtor, none⟩)
      (Beside LoadedFunctions.NamedAs) := by
  rw [parseFunctions_loop_eq]
  apply follows_sectionLoop
  · intro later cursor tables parsed _ kept
    exact follows_parseFunctionLines _ cursor kept
  · exact ⟨functionsNamed, ctorNamed, Option.Rel.none⟩

end Functions

/-- The kind of an indirect call with its names. -/
inductive LoadedIcfType.NamedAs (pool : StringPool) : LoadedIcfType → ParsedIcfType → Prop
  | virtualMethodCall {className methodName : CharPtr} {classText methodText : Text}
      (classNames : Names pool className classText)
      (methodNames : Names pool methodName methodText) :
      NamedAs pool (.virtualMethodCall className methodName)
        (.virtualMethodCall classText methodText)
  | pointerToMethodCall {className type : CharPtr} {classText typeText : Text}
      (classNames : Names pool className classText) (attrs : UInt8)
      (typeNames : Names pool type typeText) :
      NamedAs pool (.pointerToMethodCall className attrs type)
        (.pointerToMethodCall classText attrs typeText)
  | normalCall {type : CharPtr} {typeText : Text} (typeNames : Names pool type typeText) :
      NamedAs pool (.normalCall type) (.normalCall typeText)

/-- The record of an indirect call with its names. -/
structure LoadedIcf.NamedAs (pool : StringPool) (icf : LoadedIcf) (parsed : ParsedIcf) :
    Prop where
  id : Names pool icf.id parsed.id
  ity : icf.ity.NamedAs pool parsed.ity

/-- The records of indirect calls with their names. -/
def IcfLists (pool : StringPool) : List LoadedIcf → List ParsedIcf → Prop :=
  List.Forall₂ (LoadedIcf.NamedAs pool)

section IndirectCalls

variable {pool later : StringPool}

theorem LoadedIcfType.NamedAs.extend {ity : LoadedIcfType} {parsed : ParsedIcfType}
    (named : ity.NamedAs pool parsed) (grows : pool.Extends later) :
    ity.NamedAs later parsed := by
  cases named with
  | virtualMethodCall classNames methodNames =>
      exact .virtualMethodCall (classNames.extend grows) (methodNames.extend grows)
  | pointerToMethodCall classNames attrs typeNames =>
      exact .pointerToMethodCall (classNames.extend grows) attrs (typeNames.extend grows)
  | normalCall typeNames => exact .normalCall (typeNames.extend grows)

theorem LoadedIcf.NamedAs.extend {icf : LoadedIcf} {parsed : ParsedIcf}
    (named : icf.NamedAs pool parsed) (grows : pool.Extends later) :
    icf.NamedAs later parsed where
  id := named.id.extend grows
  ity := named.ity.extend grows

theorem follows_parseIcfType (cursor : Text) :
    Follows pool (Loading.parseIcfType cursor) (parseIcfType cursor)
      (Beside LoadedIcfType.NamedAs) := by
  unfold Loading.parseIcfType parseIcfType
  split
  next => exact Follows.stop _
  next tag rest =>
    dsimp only
    split
    next =>
      apply Follows.lift_bind_same
      rintro ⟨classText, _, cursor⟩
      apply follows_spInternString
      intro middle className grows classNames
      apply Follows.lift_bind_same
      rintro ⟨methodText, _, cursor⟩
      apply follows_spInternString
      intro later methodName growsMore methodNames
      exact Follows.pure ⟨.virtualMethodCall (classNames.extend growsMore) methodNames, rfl⟩
    next =>
      apply Follows.lift_bind_same
      rintro ⟨classText, _, cursor⟩
      apply follows_spInternString
      intro middle className grows classNames
      apply follows_spInternString
      intro later methodName growsMore methodNames
      exact Follows.pure ⟨.virtualMethodCall (classNames.extend growsMore) methodNames, rfl⟩
    next =>
      apply Follows.lift_bind_same
      rintro ⟨classText, _, cursor⟩
      apply follows_spInternString
      intro middle className grows classNames
      apply Follows.lift_bind_same
      rintro ⟨co, _, cursor⟩
      apply Follows.lift_bind_same
      rintro ⟨typeText, _, cursor⟩
      apply follows_spInternString
      intro later type growsMore typeNames
      exact Follows.pure
        ⟨.pointerToMethodCall (classNames.extend growsMore) _ typeNames, rfl⟩
    next =>
      apply Follows.lift_bind_same
      rintro ⟨typeText, _, cursor⟩
      apply follows_spInternString
      intro later type grows typeNames
      exact Follows.pure ⟨.normalCall typeNames, rfl⟩
    next => exact Follows.stop _

theorem follows_parseIcf (cursor : Text) {icfs : List LoadedIcf} {parsed : List ParsedIcf}
    (related : IcfLists pool icfs parsed) :
    Follows pool (Loading.parseIcf cursor icfs) (parseIcf cursor parsed)
      (Beside IcfLists) := by
  unfold Loading.parseIcf parseIcf
  apply Follows.lift_bind_same
  rintro ⟨idText, _, cursor⟩
  apply follows_spInternString
  intro middle id grows idNames
  apply Follows.bind (follows_parseIcfType cursor)
  rintro later ⟨ity, cursor⟩ ⟨parsedIty, otherCursor⟩ growsMore ⟨ityNamed, same⟩
  cases same
  refine Follows.pure ⟨?_, rfl⟩
  apply List.rel_append
  · exact List.Forall₂.imp
      (fun _ _ (named : LoadedIcf.NamedAs _ _ _) => named.extend (grows.trans growsMore)) related
  · exact List.Forall₂.cons ⟨idNames.extend growsMore, ityNamed⟩ List.Forall₂.nil

/-- `parse_icfs` on pointers does what it does on strings. -/
theorem follows_parseIcfs (content behind : Text) {icfs : List LoadedIcf}
    {parsed : List ParsedIcf} (related : IcfLists pool icfs parsed) :
    Follows pool (Loading.parseIcfs content behind icfs)
      (parseIcfs.loop behind (content.length + 1) (content ++ behind) parsed)
      (Beside IcfLists) := by
  rw [parseIcfs_loop_eq]
  exact follows_sectionLoop (fun _ cursor _ _ _ kept => follows_parseIcf cursor kept) _ _
    related

end IndirectCalls

/-- Class tables with their names. -/
def NameTables (pool : StringPool) :
    OrdDict CharPtr (OrdDict CharPtr UInt8) → OrdDict Text (OrdDict Text UInt8) → Prop :=
  OrdDict.Related (Names pool) (OrdDict.Related (Names pool) (· = ·))

/-- What `parse_cha` fills with its names. -/
structure LoadedClasses.NamedAs (pool : StringPool) (tables : LoadedClasses)
    (parsed : ClassTables) : Prop where
  classes : NameTables pool tables.classes parsed.classes
  cha : NameGraphs pool tables.cha parsed.cha

/-- Virtual tables with their names. -/
def VtableNames (pool : StringPool) :
    OrdDict CharPtr (List CharPtr) → OrdDict Text (List Text) → Prop :=
  OrdDict.Related (Names pool) (NameLists pool)

section Classes

variable {pool later : StringPool}

theorem NameTables.extend {first : OrdDict CharPtr (OrdDict CharPtr UInt8)}
    {second : OrdDict Text (OrdDict Text UInt8)} (related : NameTables pool first second)
    (grows : pool.Extends later) : NameTables later first second :=
  OrdDict.Related.mono related (fun _ _ names => names.extend grows)
    fun _ _ methods => methods.mono (fun _ _ names => names.extend grows) fun _ _ => id

theorem LoadedClasses.NamedAs.extend {tables : LoadedClasses} {parsed : ClassTables}
    (named : tables.NamedAs pool parsed) (grows : pool.Extends later) :
    tables.NamedAs later parsed where
  classes := named.classes.extend grows
  cha := named.cha.extend grows

theorem VtableNames.extend {first : OrdDict CharPtr (List CharPtr)}
    {second : OrdDict Text (List Text)} (related : VtableNames pool first second)
    (grows : pool.Extends later) : VtableNames later first second :=
  OrdDict.Related.mono related (fun _ _ names => names.extend grows)
    fun _ _ nodes => NameLists.extend nodes grows

theorem follows_parseInheritance (cursor : Text) {cha : LinkMap CharPtr CharPtr}
    {parsed : LinkMap Text Text} (related : NameGraphs pool cha parsed) :
    Follows pool (Loading.parseInheritance cursor cha) (parseInheritance cursor parsed)
      (Beside NameGraphs) := by
  unfold Loading.parseInheritance parseInheritance
  apply Follows.lift_bind_same
  rintro ⟨subText, stop, cursor⟩
  apply follows_spInternString
  intro later subClass grows subNames
  dsimp only
  split
  next => exact Follows.pure ⟨related.extend grows, rfl⟩
  next =>
    apply follows_whileNotStop _ _ _ (related.extend grows)
    intro last superText cha parsed growsMore kept
    apply follows_spInternString
    intro pool superClass growsLast superNames
    apply Follows.pure
    exact LinkMap.Related.join (biUnique_names pool) (NameGraphs.extend kept growsLast)
      (subNames.extend (growsMore.trans growsLast)) superNames

/-- The methods of a class in both tables. -/
private theorem methods_related {classes : OrdDict CharPtr (OrdDict CharPtr UInt8)}
    {parsed : OrdDict Text (OrdDict Text UInt8)} (related : NameTables pool classes parsed)
    {ptr : CharPtr} {text : Text} (names : Names pool ptr text) :
    OrdDict.Related (Names pool) (· = ·) ((dictFind classes ptr).getD ∅)
      ((dictFind parsed text).getD ∅) := by
  unfold dictFind
  rcases OrdDict.Related.find_cases (biUnique_names pool) related names with
    ⟨missing, otherMissing⟩ | ⟨methods, otherMethods, found, otherFound, pair⟩
  · rw [missing, otherMissing]
    exact OrdDict.Related.empty
  · rw [found, otherFound]
    exact pair

theorem follows_addMethod {ptr : CharPtr} {text : Text} (names : Names pool ptr text)
    (string : Text) {classes : OrdDict CharPtr (OrdDict CharPtr UInt8)}
    {parsed : OrdDict Text (OrdDict Text UInt8)} (related : NameTables pool classes parsed) :
    Follows pool (Loading.addMethod ptr string classes) (addMethod text string parsed)
      NameTables := by
  unfold Loading.addMethod addMethod
  apply Follows.lift_bind_same
  rintro ⟨methodText, attrs⟩
  apply follows_spInternString
  intro later methodName grows methodNames
  have kept := related.extend grows
  have classNames := names.extend grows
  have methods := methods_related kept classNames
  dsimp only
  rcases methods.find_cases (biUnique_names later) methodNames with
    ⟨missing, otherMissing⟩ | ⟨old, otherOld, found, otherFound, same⟩
  · rw [show dictFind ((dictFind classes ptr).getD ∅) methodName = none from missing,
      show dictFind ((dictFind parsed text).getD ∅) methodText = none from otherMissing]
    apply Follows.lift_bind
    intro result added
    obtain ⟨other, otherAdded, resultRelated⟩ := dictAdd_related methods methodNames rfl added
    refine ⟨other, otherAdded, Follows.pure ?_⟩
    exact OrdDict.Related.modify (biUnique_names later) kept classNames
      fun _ _ _ => resultRelated
  · rw [show dictFind ((dictFind classes ptr).getD ∅) methodName = some old from found,
      show dictFind ((dictFind parsed text).getD ∅) methodText = some otherOld from otherFound,
      same]
    dsimp only
    split
    next => exact Follows.stop _
    next => exact Follows.pure kept

theorem follows_parseClasses (cursor : Text)
    {classes : OrdDict CharPtr (OrdDict CharPtr UInt8)}
    {parsed : OrdDict Text (OrdDict Text UInt8)} (related : NameTables pool classes parsed) :
    Follows pool (Loading.parseClasses cursor classes) (parseClasses cursor parsed)
      (Beside NameTables) := by
  unfold Loading.parseClasses parseClasses
  apply Follows.lift_bind_same
  rintro ⟨classText, stop, cursor⟩
  apply follows_spInternString
  intro later className grows classNames
  have kept := related.extend grows
  -- the class has its entry in both tables
  have methods {middle : StringPool} {classes : OrdDict CharPtr (OrdDict CharPtr UInt8)}
      {parsed : OrdDict Text (OrdDict Text UInt8)} (grows : later.Extends middle)
      (related : NameTables middle classes parsed) :
      Follows middle
        (if stop then pure (classes, cursor)
          else Loading.whileNotStop '#' (Loading.addMethod className) cursor.length cursor
            classes)
        (if stop then pure (parsed, cursor)
          else whileNotStop '#' (addMethod classText) cursor.length cursor parsed)
        (Beside NameTables) := by
    split
    next => exact Follows.pure ⟨related, rfl⟩
    next =>
      apply follows_whileNotStop _ _ _ related
      intro last string classes parsed growsMore kept
      exact follows_addMethod (classNames.extend (grows.trans growsMore)) string kept
  dsimp only
  rw [dictIn_eq kept classNames]
  split
  next =>
    rw [pure_bind, pure_bind]
    exact methods (InternPool.Extends.refl later) kept
  next =>
    apply Follows.lift_bind
    intro result added
    obtain ⟨other, otherAdded, resultRelated⟩ :=
      dictAdd_related kept classNames OrdDict.Related.empty added
    exact ⟨other, otherAdded, methods (InternPool.Extends.refl later) resultRelated⟩

theorem follows_parseChaRecord (cursor : Text) {tables : LoadedClasses}
    {parsed : ClassTables} (named : tables.NamedAs pool parsed) :
    Follows pool (Loading.parseChaRecord cursor tables) (parseChaRecord cursor parsed)
      (Beside LoadedClasses.NamedAs) := by
  unfold Loading.parseChaRecord parseChaRecord
  split
  next cursor =>
    apply Follows.bind (follows_parseInheritance _ named.cha)
    rintro later ⟨cha, cursor⟩ ⟨parsedCha, otherCursor⟩ grows ⟨chaNamed, same⟩
    cases same
    exact Follows.pure ⟨⟨named.classes.extend grows, chaNamed⟩, rfl⟩
  next cursor =>
    apply Follows.bind (follows_parseClasses _ named.classes)
    rintro later ⟨classes, cursor⟩ ⟨parsedClasses, otherCursor⟩ grows ⟨classesNamed, same⟩
    cases same
    exact Follows.pure ⟨⟨classesNamed, named.cha.extend grows⟩, rfl⟩
  next => exact Follows.stop _

/-- `parse_cha` on pointers does what it does on strings. -/
theorem follows_parseCha (content behind : Text) {tables : LoadedClasses}
    {parsed : ClassTables} (named : tables.NamedAs pool parsed) :
    Follows pool (Loading.parseCha content behind tables)
      (parseCha.loop behind (content.length + 1) (content ++ behind) parsed)
      (Beside LoadedClasses.NamedAs) := by
  rw [parseCha_loop_eq]
  exact follows_sectionLoop
    (fun _ cursor _ _ _ kept => follows_parseChaRecord cursor kept) _ _ named

theorem follows_parseVtableEntry (cursor : Text) {vtable : OrdDict CharPtr (List CharPtr)}
    {parsed : OrdDict Text (List Text)} (related : VtableNames pool vtable parsed) :
    Follows pool (Loading.parseVtableEntry cursor vtable) (parseVtableEntry cursor parsed)
      (Beside VtableNames) := by
  unfold Loading.parseVtableEntry parseVtableEntry
  apply Follows.lift_bind_same
  rintro ⟨ctorText, _, cursor⟩
  apply follows_spInternString
  intro middle ctorName grows ctorNames
  apply Follows.lift_bind_same
  rintro ⟨list, _, cursor⟩
  apply Follows.bind (follows_addNodeList '#' list List.Forall₂.nil)
  intro later vmtd texts growsMore nodes
  have kept := related.extend (grows.trans growsMore)
  have names := ctorNames.extend growsMore
  rcases OrdDict.Related.find_cases (biUnique_names later) kept names with
    ⟨missing, otherMissing⟩ | ⟨old, otherOld, found, otherFound, _⟩
  · rw [show dictFind vtable ctorName = none from missing,
      show dictFind parsed ctorText = none from otherMissing]
    apply Follows.lift_bind
    intro result added
    obtain ⟨other, otherAdded, resultRelated⟩ := dictAdd_related kept names nodes added
    exact ⟨other, otherAdded, Follows.pure ⟨resultRelated, rfl⟩⟩
  · rw [show dictFind vtable ctorName = some old from found,
      show dictFind parsed ctorText = some otherOld from otherFound]
    exact Follows.pure ⟨kept, rfl⟩

/-- `parse_vtable` on pointers does what it does on strings. -/
theorem follows_parseVtable (content behind : Text)
    {vtable : OrdDict CharPtr (List CharPtr)} {parsed : OrdDict Text (List Text)}
    (related : VtableNames pool vtable parsed) :
    Follows pool (Loading.parseVtable content behind vtable)
      (parseVtable.loop behind (content.length + 1) (content ++ behind) parsed)
      (Beside VtableNames) := by
  rw [parseVtable_loop_eq]
  exact follows_sectionLoop
    (fun _ cursor _ _ _ kept => follows_parseVtableEntry cursor kept) _ _ related

end Classes

end Mcfi
