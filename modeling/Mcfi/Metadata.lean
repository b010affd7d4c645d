import Mathlib.Data.List.Induction
import Mcfi.Graph
import Mcfi.Lib.ByteMem

namespace Mcfi

open LinkMap

/-!
# The metadata of code modules

The records that the runtime keeps for a code module, and the merge of the
metadata of all modules into the one set that CFG generation reads.

A name is a pointer into the string pool, so equal strings are equal pointers.
Graph vertices are pointers whose unused high bits say what the name stands for.
-/

/-- A pointer to an interned string; user-space pointers have 47 bits. -/
structure Name where
  ptr : Nat
  small : ptr < 2 ^ 47
  deriving DecidableEq

namespace Name

/-- The name at a user-space pointer. -/
def ofPtr (ptr : Nat) : Name :=
  ⟨ptr % 2 ^ 47, Nat.mod_lt ptr (by decide)⟩

theorem ext_ptr {first second : Name} (same : first.ptr = second.ptr) :
    first = second := by
  cases first
  cases second
  simpa using same

end Name

/-- `_mark_func`. -/
def markFunc (name : Name) : Nat :=
  name.ptr

/-- `_mark_icj`. -/
def markIcj (name : Name) : Nat :=
  name.ptr ||| 0x8000000000000000

/-- `_mark_ret`. -/
def markRet (name : Name) : Nat :=
  name.ptr ||| 0x4000000000000000

/-- `_mark_ra_dc`. -/
def markRaDc (name : Name) : Nat :=
  name.ptr ||| 0x2000000000000000

/-- `_mark_ra_ic`. -/
def markRaIc (name : Name) : Nat :=
  name.ptr ||| 0x1000000000000000

/-- `_unmark_ptr`. -/
def unmarkPtr (ptr : Nat) : Name where
  ptr := ptr &&& 0x7FFFFFFFFFFF
  small := by
    rw [show (0x7FFFFFFFFFFF : Nat) = 2 ^ 47 - 1 from rfl,
      Nat.and_two_pow_sub_one_eq_mod]
    exact Nat.mod_lt _ (by decide)

section Marks

/-- A mark bit above a small pointer is added to it. -/
private theorem or_mark (name : Name) (bit : Nat) (high : 47 ≤ bit) :
    name.ptr ||| 2 ^ bit = name.ptr + 2 ^ bit := by
  have below : name.ptr < 2 ^ bit :=
    Nat.lt_of_lt_of_le name.small (Nat.pow_le_pow_right (by decide) high)
  have joined := Nat.two_pow_add_eq_or_of_lt below 1
  rw [Nat.mul_one] at joined
  rw [Nat.or_comm, ← joined, Nat.add_comm]

theorem markIcj_eq (name : Name) : markIcj name = name.ptr + 2 ^ 63 :=
  or_mark name 63 (by decide)

theorem markRet_eq (name : Name) : markRet name = name.ptr + 2 ^ 62 :=
  or_mark name 62 (by decide)

theorem markRaDc_eq (name : Name) : markRaDc name = name.ptr + 2 ^ 61 :=
  or_mark name 61 (by decide)

theorem markRaIc_eq (name : Name) : markRaIc name = name.ptr + 2 ^ 60 :=
  or_mark name 60 (by decide)

/-- The names behind two marked pointers, for arithmetic on the marks. -/
theorem marks_bounds (name : Name) :
    name.ptr < 2 ^ 47 ∧ markFunc name = name.ptr ∧
      markIcj name = name.ptr + 2 ^ 63 ∧ markRet name = name.ptr + 2 ^ 62 ∧
      markRaDc name = name.ptr + 2 ^ 61 ∧ markRaIc name = name.ptr + 2 ^ 60 :=
  ⟨name.small, rfl, markIcj_eq name, markRet_eq name, markRaDc_eq name,
    markRaIc_eq name⟩

@[simp] theorem markFunc_inj {first second : Name} :
    markFunc first = markFunc second ↔ first = second :=
  ⟨Name.ext_ptr, congrArg _⟩

@[simp] theorem markIcj_inj {first second : Name} :
    markIcj first = markIcj second ↔ first = second := by
  refine ⟨fun same => Name.ext_ptr ?_, congrArg _⟩
  rw [markIcj_eq, markIcj_eq] at same
  omega

@[simp] theorem markRet_inj {first second : Name} :
    markRet first = markRet second ↔ first = second := by
  refine ⟨fun same => Name.ext_ptr ?_, congrArg _⟩
  rw [markRet_eq, markRet_eq] at same
  omega

theorem markFunc_ne_markIcj (first second : Name) :
    markFunc first ≠ markIcj second := by
  have firstMarks := marks_bounds first
  have secondMarks := marks_bounds second
  omega

theorem markFunc_ne_markRet (first second : Name) :
    markFunc first ≠ markRet second := by
  have firstMarks := marks_bounds first
  have secondMarks := marks_bounds second
  omega

theorem markFunc_ne_markRaDc (first second : Name) :
    markFunc first ≠ markRaDc second := by
  have firstMarks := marks_bounds first
  have secondMarks := marks_bounds second
  omega

theorem markIcj_ne_markRaIc (first second : Name) :
    markIcj first ≠ markRaIc second := by
  have firstMarks := marks_bounds first
  have secondMarks := marks_bounds second
  omega

/-- Removing the marks of an unmarked name gives the name back. -/
@[simp] theorem unmarkPtr_markFunc (name : Name) :
    unmarkPtr (markFunc name) = name := by
  apply Name.ext_ptr
  change name.ptr &&& 0x7FFFFFFFFFFF = name.ptr
  rw [show (0x7FFFFFFFFFFF : Nat) = 2 ^ 47 - 1 from rfl,
    Nat.and_two_pow_sub_one_eq_mod]
  exact Nat.mod_eq_of_lt name.small

end Marks

/-- `enum Qualifiers`, as the bit positions of an attribute byte. -/
inductive Qualifier where
  | constant
  | volatile
  | static
  | virtual
  deriving Repr, DecidableEq

/-- The attribute bit of a qualifier. -/
def Qualifier.bit : Qualifier → UInt8
  | .constant => 1
  | .volatile => 2
  | .static => 4
  | .virtual => 8

/-- Test one qualifier of an attribute byte. -/
def hasQualifier (qualifier : Qualifier) (attrs : UInt8) : Bool :=
  (attrs &&& qualifier.bit) != 0

/-- `is_constant`. -/
def isConstant : UInt8 → Bool :=
  hasQualifier .constant

/-- `is_volatile`. -/
def isVolatile : UInt8 → Bool :=
  hasQualifier .volatile

/-- `is_static`. -/
def isStatic : UInt8 → Bool :=
  hasQualifier .static

/-- `is_virtual`. -/
def isVirtual : UInt8 → Bool :=
  hasQualifier .virtual

/--
The type of an indirect control transfer with the fields that type uses.  A
normal call registered by generated code inherits its type from a function
record, where it may be null.
-/
inductive IcfType where
  | virtualMethodCall (className methodName : Name)
  | pointerToMethodCall (type : Name) (attrs : UInt8)
  | normalCall (type : Option Name)
  deriving DecidableEq

/-- `struct icf_t`. -/
structure Icf where
  id : Name
  ity : IcfType
  deriving DecidableEq

/-- `struct function_t`, without the offset, which is never set. -/
structure Function where
  name : Name
  className : Option Name
  methodName : Option Name
  type : Option Name
  returns : List Name
  dtails : List Name
  itails : List Name
  deriving DecidableEq

/-- `struct symbol_t`. -/
structure Symbol where
  name : Name
  offset : Nat
  deriving DecidableEq

/-- `struct verifier_t`, without the table sizes nothing reads. -/
structure Verifier where
  dfa : Nat → UInt16
  start : UInt16
  dcall : UInt16
  icall : UInt16
  ijmp : UInt16
  jmpRel1 : UInt16
  jmpRel4 : UInt16
  jccRel1 : UInt16
  jccRel4 : UInt16
  mcficall : UInt16
  mcficheck : UInt16
  mcfiret : UInt16
  terminator : UInt16
  maxAccept : UInt16

/-- The page size that module placement is a multiple of. -/
def pageSize : Nat := 0x1000

/-- A page is aligned with the pages. -/
theorem page_aligned : 0x1000 % pageSize = 0 :=
  rfl

/-- The base address of programs is aligned. -/
theorem programBase_aligned : 0x400000 % pageSize = 0 :=
  rfl

/-- The address of a library after a program is aligned. -/
theorem libraryBase_aligned : 0x500000 % pageSize = 0 :=
  rfl

/-- Class tables: the methods of each class with their attribute bytes. -/
abbrev ClassTable := OrdDict Name (OrdDict Name UInt8)

/--
`struct code_module_t`.  The loader and `create_code_heap` place modules on whole
pages, and the hierarchy and alias graphs are built by `g_add_edge` only; both
facts are fields.
-/
structure CodeModule where
  baseAddr : Nat
  sz : Nat
  gotplt : Nat
  gotpltsz : Nat
  icfs : List Icf
  functions : List Function
  classes : ClassTable
  cha : LinkMap Name Name
  aliases : LinkMap Name Name
  rai : List Symbol
  rad : List Symbol
  lp : List Symbol
  flp : LinkMap Nat Nat
  funcsyms : List Symbol
  icfsyms : List Symbol
  fats : KeySet Name
  fatsInCode : KeySet Name
  fatsInData : KeySet Name
  raOrig : OrdDict Nat Nat
  atFunc : OrdDict Nat Name
  funcOrig : OrdDict Nat Nat
  ctor : OrdDict Nat Name
  vtable : OrdDict Name (List Name)
  definedCtors : KeySet Name
  dynfuncs : LinkMap Nat Name
  cfggened : Bool
  activated : Bool
  codeHeap : Bool
  codeDataBitmap : ByteMem
  bidSlotInCodeheap : OrdDict Name Nat
  verifier : Option Verifier
  instrumented : Bool
  baseAligned : baseAddr % pageSize = 0
  sizeAligned : sz % pageSize = 0
  chaUndirected : Undirected cha
  aliasesUndirected : Undirected aliases

/-- `alloc_code_module`: every field zero. -/
def allocCodeModule : CodeModule where
  baseAddr := 0
  sz := 0
  gotplt := 0
  gotpltsz := 0
  icfs := []
  functions := []
  classes := ∅
  cha := ∅
  aliases := ∅
  rai := []
  rad := []
  lp := []
  flp := ∅
  funcsyms := []
  icfsyms := []
  fats := ∅
  fatsInCode := ∅
  fatsInData := ∅
  raOrig := ∅
  atFunc := ∅
  funcOrig := ∅
  ctor := ∅
  vtable := ∅
  definedCtors := ∅
  dynfuncs := ∅
  cfggened := false
  activated := false
  codeHeap := false
  codeDataBitmap := fun _ => 0
  bidSlotInCodeheap := ∅
  verifier := none
  instrumented := false
  baseAligned := rfl
  sizeAligned := rfl
  chaUndirected := undirected_empty
  aliasesUndirected := undirected_empty

/-- An address lies in a module's executable segment. -/
def CodeModule.Holds (codeModule : CodeModule) (addr : Nat) : Prop :=
  codeModule.baseAddr ≤ addr ∧ addr < codeModule.baseAddr + codeModule.sz

instance (codeModule : CodeModule) (addr : Nat) :
    Decidable (codeModule.Holds addr) :=
  inferInstanceAs (Decidable (_ ∧ _))

/-- The merged metadata that one CFG generation reads. -/
structure Metainfo where
  icfs : List Icf
  functions : List Function
  classes : ClassTable
  cha : LinkMap Name Name
  fats : KeySet Name
  fatsInData : KeySet Name
  fatsInCode : KeySet Name
  aliases : LinkMap Name Name
  definedCtors : KeySet Name

/-- `merge_dicts`: the first value met for a key stays. -/
def mergeDicts {κ ν : Type} [DecidableEq κ]
    (dict incoming : OrdDict κ ν) : OrdDict κ ν :=
  incoming.entries.foldl (fun acc entry => acc.insertNew entry.1 entry.2) dict

/-- `merge_graphs`. -/
def mergeGraphs {κ : Type} [DecidableEq κ]
    (graph incoming : LinkMap κ κ) : LinkMap κ κ :=
  incoming.entries.foldl (fun acc entry =>
    (gAddVertex acc entry.1).modify entry.1 fun adjacent =>
      entry.2.keys.foldl (fun adjacent key => gAddVertexKey adjacent key)
        adjacent) graph
where
  /-- `g_add_vertex` on a set of neighbours. -/
  gAddVertexKey (adjacent : KeySet κ) (key : κ) : KeySet κ :=
    adjacent.insertNew key ()

/-- The body of `merge_mcfi_metainfo`'s loop; appending copies the records. -/
def mergeModule (info : Metainfo) (codeModule : CodeModule) : Metainfo where
  icfs := info.icfs ++ codeModule.icfs
  functions := info.functions ++ codeModule.functions
  classes := mergeDicts info.classes codeModule.classes
  cha := mergeGraphs info.cha codeModule.cha
  fats := mergeDicts info.fats codeModule.fats
  fatsInData := mergeDicts info.fatsInData codeModule.fatsInData
  fatsInCode := mergeDicts info.fatsInCode codeModule.fatsInCode
  aliases := mergeGraphs info.aliases codeModule.aliases
  definedCtors := mergeDicts info.definedCtors codeModule.definedCtors

/-- The empty metadata that merging starts from. -/
def Metainfo.empty : Metainfo where
  icfs := []
  functions := []
  classes := ∅
  cha := ∅
  fats := ∅
  fatsInData := ∅
  fatsInCode := ∅
  aliases := ∅
  definedCtors := ∅

/-- `merge_mcfi_metainfo`. -/
def mergeMcfiMetainfo (modules : List CodeModule) : Metainfo :=
  modules.foldl mergeModule Metainfo.empty

section Merging

variable {κ ν : Type} [DecidableEq κ]

/-- A merged dictionary has the keys of both. -/
@[simp] theorem mem_mergeDicts
    {dict incoming : OrdDict κ ν} {key : κ} :
    key ∈ mergeDicts dict incoming ↔ key ∈ dict ∨ key ∈ incoming := by
  have fold : ∀ (entries : List (κ × ν)) (acc : OrdDict κ ν),
      key ∈ entries.foldl (fun acc entry => acc.insertNew entry.1 entry.2) acc ↔
        key ∈ acc ∨ key ∈ entries.map Prod.fst := by
    intro entries
    induction entries with
    | nil =>
        simp
    | cons entry rest inductionHypothesis =>
        intro acc
        rw [List.foldl_cons, inductionHypothesis, OrdDict.mem_insertNew,
          List.map_cons, List.mem_cons]
        tauto
  exact fold incoming.entries dict

/-- The first dictionary's values win. -/
theorem find_mergeDicts_of_find
    {dict incoming : OrdDict κ ν} {key : κ} {value : ν}
    (found : dict.find key = some value) :
    (mergeDicts dict incoming).find key = some value := by
  unfold mergeDicts
  generalize incoming.entries = entries
  induction entries generalizing dict with
  | nil =>
      exact found
  | cons entry rest inductionHypothesis =>
      apply inductionHypothesis
      rw [OrdDict.find_insertNew]
      split
      next fresh =>
        have present := OrdDict.mem_of_find found
        exact (fresh.2 (fresh.1 ▸ present)).elim
      next =>
        exact found

/-- Lookup in a merged dictionary. -/
theorem find_mergeDicts (dict incoming : OrdDict κ ν) (key : κ) :
    (mergeDicts dict incoming).find key =
      (dict.find key).or (incoming.find key) := by
  have fold : ∀ (entries : List (κ × ν)) (acc : OrdDict κ ν),
      (entries.foldl (fun acc entry => acc.insertNew entry.1 entry.2) acc).find key =
        (acc.find key).or
          ((entries.find? fun entry => entry.1 = key).map Prod.snd) := by
    intro entries
    induction entries with
    | nil =>
        simp
    | cons entry rest inductionHypothesis =>
        intro acc
        rw [List.foldl_cons, inductionHypothesis, OrdDict.find_insertNew,
          List.find?_cons]
        by_cases same : key = entry.1
        · subst same
          by_cases present : entry.1 ∈ acc
          · obtain ⟨value, found⟩ := OrdDict.exists_find_of_mem present
            simp [present, found]
          · simp [present, OrdDict.find_eq_none.mpr present]
        · have other : ¬ entry.1 = key := fun reversed => same reversed.symm
          simp [same, other]
  exact fold incoming.entries dict

/-- Adding keys to a key set. -/
private theorem mem_foldl_addKey
    (keys : List κ) (adjacent : KeySet κ) (key : κ) :
    key ∈ keys.foldl
        (fun adjacent key => mergeGraphs.gAddVertexKey adjacent key)
        adjacent ↔
      key ∈ adjacent ∨ key ∈ keys := by
  induction keys generalizing adjacent with
  | nil =>
      simp
  | cons head rest inductionHypothesis =>
      rw [List.foldl_cons, inductionHypothesis, mergeGraphs.gAddVertexKey,
        OrdDict.mem_insertNew, List.mem_cons]
      tauto

/-- A merged graph has the links of both. -/
@[simp] theorem linked_mergeGraphs
    {graph incoming : LinkMap κ κ} {first second : κ} :
    Linked (mergeGraphs graph incoming) first second ↔
      Linked graph first second ∨ Linked incoming first second := by
  have linkedEntry : ∀ (acc : LinkMap κ κ) (entry : κ × KeySet κ),
      Linked ((gAddVertex acc entry.1).modify entry.1 fun adjacent =>
          entry.2.keys.foldl
            (fun adjacent key => mergeGraphs.gAddVertexKey adjacent key)
            adjacent) first second ↔
        Linked acc first second ∨ (first = entry.1 ∧ second ∈ entry.2) := by
    intro acc entry
    unfold Linked gAddVertex
    rw [OrdDict.find_modify, OrdDict.find_insertNew]
    by_cases same : first = entry.1
    · subst same
      cases found : acc.find entry.1 with
      | none =>
          simp [OrdDict.find_eq_none.mp found, mem_foldl_addKey,
            OrdDict.mem_keys]
      | some adjacent =>
          simp [OrdDict.mem_of_find found, mem_foldl_addKey, OrdDict.mem_keys]
    · simp [same]
  have fold : ∀ (entries : List (κ × KeySet κ)) (acc : LinkMap κ κ),
      Linked (entries.foldl (fun acc entry =>
          (gAddVertex acc entry.1).modify entry.1 fun adjacent =>
            entry.2.keys.foldl
              (fun adjacent key => mergeGraphs.gAddVertexKey adjacent key)
              adjacent) acc) first second ↔
        Linked acc first second ∨
          ∃ entry ∈ entries, first = entry.1 ∧ second ∈ entry.2 := by
    intro entries
    induction entries with
    | nil =>
        simp
    | cons entry rest inductionHypothesis =>
        intro acc
        rw [List.foldl_cons, inductionHypothesis, linkedEntry, or_assoc,
          List.exists_mem_cons_iff]
  rw [mergeGraphs, fold]
  apply or_congr_right
  constructor
  · rintro ⟨entry, listed, rfl, inside⟩
    exact ⟨entry.2, OrdDict.find_eq_some.mpr listed, inside⟩
  · rintro ⟨adjacent, found, inside⟩
    exact ⟨(first, adjacent), OrdDict.find_eq_some.mp found, rfl, inside⟩

/-- A merged graph has the vertices of both. -/
@[simp] theorem mem_mergeGraphs
    {graph incoming : LinkMap κ κ} {key : κ} :
    key ∈ mergeGraphs graph incoming ↔ key ∈ graph ∨ key ∈ incoming := by
  have fold : ∀ (entries : List (κ × KeySet κ)) (acc : LinkMap κ κ),
      key ∈ entries.foldl (fun acc entry =>
          (gAddVertex acc entry.1).modify entry.1 fun adjacent =>
            entry.2.keys.foldl
              (fun adjacent key => mergeGraphs.gAddVertexKey adjacent key)
              adjacent) acc ↔
        key ∈ acc ∨ key ∈ entries.map Prod.fst := by
    intro entries
    induction entries with
    | nil =>
        simp
    | cons entry rest inductionHypothesis =>
        intro acc
        rw [List.foldl_cons, inductionHypothesis, OrdDict.mem_modify,
          gAddVertex, OrdDict.mem_insertNew, List.map_cons, List.mem_cons]
        tauto
  exact fold incoming.entries graph

/-- Merging undirected graphs gives an undirected graph. -/
theorem undirected_mergeGraphs
    {graph incoming : LinkMap κ κ}
    (graphUndirected : Undirected graph)
    (incomingUndirected : Undirected incoming) :
    Undirected (mergeGraphs graph incoming) := by
  intro first second linked
  rw [linked_mergeGraphs] at linked ⊢
  exact linked.imp (fun old => graphUndirected old)
    (fun new => incomingUndirected new)

end Merging

section MergedMetainfo

/-- Merging one module after the others. -/
theorem mergeMcfiMetainfo_append_singleton
    (modules : List CodeModule) (last : CodeModule) :
    mergeMcfiMetainfo (modules ++ [last]) =
      mergeModule (mergeMcfiMetainfo modules) last := by
  simp [mergeMcfiMetainfo, List.foldl_append]

/-- The merged lists are the concatenations of the modules' lists. -/
theorem mergeMcfiMetainfo_lists (modules : List CodeModule) :
    (mergeMcfiMetainfo modules).icfs = modules.flatMap CodeModule.icfs ∧
      (mergeMcfiMetainfo modules).functions =
        modules.flatMap CodeModule.functions := by
  induction modules using List.reverseRecOn with
  | nil =>
      exact ⟨rfl, rfl⟩
  | append_singleton modules last inductionHypothesis =>
      rw [mergeMcfiMetainfo_append_singleton, mergeModule,
        inductionHypothesis.1, inductionHypothesis.2]
      simp

/-- The merged key sets hold the keys of every module. -/
theorem mem_mergeMcfiMetainfo (modules : List CodeModule) (name : Name) :
    (name ∈ (mergeMcfiMetainfo modules).fats ↔
        ∃ codeModule ∈ modules, name ∈ codeModule.fats) ∧
      (name ∈ (mergeMcfiMetainfo modules).fatsInData ↔
        ∃ codeModule ∈ modules, name ∈ codeModule.fatsInData) ∧
      (name ∈ (mergeMcfiMetainfo modules).fatsInCode ↔
        ∃ codeModule ∈ modules, name ∈ codeModule.fatsInCode) ∧
      (name ∈ (mergeMcfiMetainfo modules).definedCtors ↔
        ∃ codeModule ∈ modules, name ∈ codeModule.definedCtors) := by
  induction modules using List.reverseRecOn with
  | nil =>
      simp [mergeMcfiMetainfo, Metainfo.empty]
  | append_singleton modules last inductionHypothesis =>
      obtain ⟨fats, fatsInData, fatsInCode, definedCtors⟩ := inductionHypothesis
      rw [mergeMcfiMetainfo_append_singleton]
      simp only [mergeModule, mem_mergeDicts, fats, fatsInData, fatsInCode,
        definedCtors, List.mem_append, List.mem_singleton, or_and_right,
        exists_or, exists_eq_left, and_self]

/-- The merged graphs hold the links of every module. -/
theorem linked_mergeMcfiMetainfo
    (modules : List CodeModule) (first second : Name) :
    (Linked (mergeMcfiMetainfo modules).cha first second ↔
        ∃ codeModule ∈ modules, Linked codeModule.cha first second) ∧
      (Linked (mergeMcfiMetainfo modules).aliases first second ↔
        ∃ codeModule ∈ modules, Linked codeModule.aliases first second) := by
  induction modules using List.reverseRecOn with
  | nil =>
      simp [mergeMcfiMetainfo, Metainfo.empty]
  | append_singleton modules last inductionHypothesis =>
      obtain ⟨cha, aliases⟩ := inductionHypothesis
      rw [mergeMcfiMetainfo_append_singleton]
      simp only [mergeModule, linked_mergeGraphs, cha, aliases,
        List.mem_append, List.mem_singleton, or_and_right, exists_or,
        exists_eq_left, and_self]

/-- The merged graphs have the vertices of every module. -/
theorem mem_mergedGraphs (modules : List CodeModule) (name : Name) :
    (name ∈ (mergeMcfiMetainfo modules).cha ↔
        ∃ codeModule ∈ modules, name ∈ codeModule.cha) ∧
      (name ∈ (mergeMcfiMetainfo modules).aliases ↔
        ∃ codeModule ∈ modules, name ∈ codeModule.aliases) := by
  induction modules using List.reverseRecOn with
  | nil =>
      simp [mergeMcfiMetainfo, Metainfo.empty]
  | append_singleton modules last inductionHypothesis =>
      obtain ⟨cha, aliases⟩ := inductionHypothesis
      rw [mergeMcfiMetainfo_append_singleton]
      simp only [mergeModule, mem_mergeGraphs, cha, aliases, List.mem_append,
        List.mem_singleton, or_and_right, exists_or, exists_eq_left, and_self]

/-- The merged table of a class is that of the first module that has one. -/
theorem find_mergedClasses (modules : List CodeModule) (className : Name) :
    (mergeMcfiMetainfo modules).classes.find className =
      modules.findSome? fun codeModule => codeModule.classes.find className := by
  induction modules using List.reverseRecOn with
  | nil =>
      exact OrdDict.find_empty className
  | append_singleton modules last inductionHypothesis =>
      rw [mergeMcfiMetainfo_append_singleton, mergeModule, find_mergeDicts,
        inductionHypothesis, List.findSome?_append]
      simp

/-- The merged hierarchy is undirected. -/
theorem undirected_cha (modules : List CodeModule) :
    Undirected (mergeMcfiMetainfo modules).cha := by
  intro first second linked
  obtain ⟨codeModule, listed, inModule⟩ :=
    (linked_mergeMcfiMetainfo modules first second).1.mp linked
  exact (linked_mergeMcfiMetainfo modules second first).1.mpr
    ⟨codeModule, listed, codeModule.chaUndirected inModule⟩

/-- The merged alias graph is undirected. -/
theorem undirected_aliases (modules : List CodeModule) :
    Undirected (mergeMcfiMetainfo modules).aliases := by
  intro first second linked
  obtain ⟨codeModule, listed, inModule⟩ :=
    (linked_mergeMcfiMetainfo modules first second).2.mp linked
  exact (linked_mergeMcfiMetainfo modules second first).2.mpr
    ⟨codeModule, listed, codeModule.aliasesUndirected inModule⟩

/-- Class entries already merged survive merging more modules. -/
theorem find_classes_append
    {modules later : List CodeModule} {className : Name}
    {methods : OrdDict Name UInt8}
    (found : (mergeMcfiMetainfo modules).classes.find className =
      some methods) :
    (mergeMcfiMetainfo (modules ++ later)).classes.find className =
      some methods := by
  induction later using List.reverseRecOn with
  | nil =>
      simpa using found
  | append_singleton later last inductionHypothesis =>
      rw [← List.append_assoc, mergeMcfiMetainfo_append_singleton]
      exact find_mergeDicts_of_find inductionHypothesis

end MergedMetainfo

end Mcfi
