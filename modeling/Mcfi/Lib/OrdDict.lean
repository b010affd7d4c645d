import Mathlib.Data.List.Nodup
import Mathlib.Data.List.Basic
import Mathlib.Tactic.Common

/-!
# Insertion-ordered dictionaries

A dictionary keeps its entries in the order in which they were added, and no
key occurs twice.  Iteration is iteration over `entries`; a new key always goes
to the end.  The absence of duplicate keys is a field, so that every dictionary
that can be built has it.

A `KeySet` is a dictionary without values.
-/

/-- A list of key-value entries in insertion order, with distinct keys. -/
structure OrdDict (κ ν : Type) where
  entries : List (κ × ν)
  nodupKeys : (entries.map Prod.fst).Nodup

/-- A dictionary that only remembers its keys. -/
abbrev KeySet (κ : Type) := OrdDict κ Unit

namespace OrdDict

variable {κ ν μ : Type}

/-- The keys of a dictionary in insertion order. -/
def keys (dict : OrdDict κ ν) : List κ :=
  dict.entries.map Prod.fst

/-- The dictionary with no entry. -/
def empty : OrdDict κ ν where
  entries := []
  nodupKeys := List.nodup_nil

instance : EmptyCollection (OrdDict κ ν) := ⟨empty⟩

instance : Inhabited (OrdDict κ ν) := ⟨empty⟩

instance : Membership κ (OrdDict κ ν) where
  mem dict key := key ∈ dict.keys

instance [DecidableEq κ] [DecidableEq ν] : DecidableEq (OrdDict κ ν) :=
  fun left right =>
    decidable_of_iff (left.entries = right.entries) (by
      cases left
      cases right
      simp)

instance [DecidableEq κ] (key : κ) (dict : OrdDict κ ν) :
    Decidable (key ∈ dict) :=
  inferInstanceAs (Decidable (key ∈ dict.keys))

/-- The value stored under a key. -/
def find [DecidableEq κ] (dict : OrdDict κ ν) (key : κ) : Option ν :=
  (dict.entries.find? fun entry => entry.1 = key).map Prod.snd

/-- Append a new entry; a key that is already present stays as it is. -/
def insertNew [DecidableEq κ]
    (dict : OrdDict κ ν) (key : κ) (value : ν) : OrdDict κ ν :=
  if fresh : key ∈ dict then
    dict
  else
    { entries := dict.entries ++ [(key, value)]
      nodupKeys := by
        have disjoint : key ∉ dict.entries.map Prod.fst := fresh
        rw [List.map_append, List.nodup_append]
        refine ⟨dict.nodupKeys, by simp, ?_⟩
        rintro other otherMember last lastMember rfl
        have same : other = key := by simpa using lastMember
        exact disjoint (same ▸ otherMember) }

/-- Append a new entry, or refuse when the key is already present. -/
def add? [DecidableEq κ]
    (dict : OrdDict κ ν) (key : κ) (value : ν) : Option (OrdDict κ ν) :=
  if key ∈ dict then none else some (dict.insertNew key value)

/-- Keep the entries whose key satisfies a test. -/
def filterKeys (keep : κ → Bool) (dict : OrdDict κ ν) : OrdDict κ ν where
  entries := dict.entries.filter fun entry => keep entry.1
  nodupKeys :=
    (List.filter_sublist.map Prod.fst).nodup dict.nodupKeys

/-- Remove a key. -/
def erase [DecidableEq κ] (dict : OrdDict κ ν) (key : κ) : OrdDict κ ν :=
  dict.filterKeys fun other => other ≠ key

/-- Change the value stored under a key, in place. -/
def modify [DecidableEq κ]
    (dict : OrdDict κ ν) (key : κ) (change : ν → ν) : OrdDict κ ν where
  entries := dict.entries.map fun entry =>
    (entry.1, if entry.1 = key then change entry.2 else entry.2)
  nodupKeys := by
    simpa [List.map_map, Function.comp_def] using dict.nodupKeys

/-- Apply a function to every value, keeping the keys and their order. -/
def mapVal (change : ν → μ) (dict : OrdDict κ ν) : OrdDict κ μ where
  entries := dict.entries.map fun entry => (entry.1, change entry.2)
  nodupKeys := by
    simpa [List.map_map, Function.comp_def] using dict.nodupKeys

/-- Membership is membership in the key list. -/
theorem mem_keys {dict : OrdDict κ ν} {key : κ} :
    key ∈ dict.keys ↔ key ∈ dict :=
  Iff.rfl

/-- A key is present exactly when some entry carries it. -/
theorem mem_iff_exists {dict : OrdDict κ ν} {key : κ} :
    key ∈ dict ↔ ∃ value, (key, value) ∈ dict.entries := by
  rw [← mem_keys, keys, List.mem_map]
  constructor
  · rintro ⟨⟨other, value⟩, member, rfl⟩
    exact ⟨value, member⟩
  · rintro ⟨value, member⟩
    exact ⟨(key, value), member, rfl⟩

@[simp] theorem not_mem_empty (key : κ) :
    key ∉ (∅ : OrdDict κ ν) := by
  rw [mem_iff_exists]
  rintro ⟨value, member⟩
  exact List.not_mem_nil member

@[simp] theorem entries_empty :
    (∅ : OrdDict κ ν).entries = [] :=
  rfl

/-- The key list has no duplicates. -/
theorem keys_nodup (dict : OrdDict κ ν) : dict.keys.Nodup :=
  dict.nodupKeys

/-- Two entries with one key are the same entry. -/
theorem value_unique
    {dict : OrdDict κ ν} {key : κ} {first second : ν}
    (firstMember : (key, first) ∈ dict.entries)
    (secondMember : (key, second) ∈ dict.entries) :
    first = second := by
  have same :=
    List.inj_on_of_nodup_map dict.nodupKeys
      firstMember secondMember rfl
  exact congrArg Prod.snd same

section Lookup

variable [DecidableEq κ]

/-- Lookup returns the value of the unique entry with the key. -/
theorem find_eq_some
    {dict : OrdDict κ ν} {key : κ} {value : ν} :
    dict.find key = some value ↔ (key, value) ∈ dict.entries := by
  constructor
  · intro found
    obtain ⟨⟨other, stored⟩, located, rfl⟩ := Option.map_eq_some_iff.mp found
    have sameKey : other = key := by
      simpa using List.find?_some located
    exact sameKey ▸ List.mem_of_find?_eq_some located
  · intro member
    cases located : dict.entries.find? fun entry => entry.1 = key with
    | none =>
        have absent := List.find?_eq_none.mp located (key, value) member
        simp at absent
    | some entry =>
        obtain ⟨other, stored⟩ := entry
        have sameKey : other = key := by
          simpa using List.find?_some located
        subst sameKey
        have same :=
          value_unique (List.mem_of_find?_eq_some located) member
        simp [find, located, same]

/-- Lookup fails exactly on the absent keys. -/
theorem find_eq_none {dict : OrdDict κ ν} {key : κ} :
    dict.find key = none ↔ key ∉ dict := by
  rw [mem_iff_exists]
  constructor
  · rintro missing ⟨value, member⟩
    simp [find_eq_some.mpr member] at missing
  · intro absent
    cases found : dict.find key with
    | none => rfl
    | some value => exact (absent ⟨value, find_eq_some.mp found⟩).elim

/-- A present key has a value. -/
theorem exists_find_of_mem {dict : OrdDict κ ν} {key : κ}
    (member : key ∈ dict) :
    ∃ value, dict.find key = some value := by
  obtain ⟨value, entry⟩ := mem_iff_exists.mp member
  exact ⟨value, find_eq_some.mpr entry⟩

/-- A successful lookup witnesses membership. -/
theorem mem_of_find {dict : OrdDict κ ν} {key : κ} {value : ν}
    (found : dict.find key = some value) :
    key ∈ dict :=
  mem_iff_exists.mpr ⟨value, find_eq_some.mp found⟩

@[simp] theorem find_isSome {dict : OrdDict κ ν} {key : κ} :
    (dict.find key).isSome = true ↔ key ∈ dict := by
  constructor
  · intro found
    obtain ⟨value, located⟩ := Option.isSome_iff_exists.mp found
    exact mem_of_find located
  · intro member
    obtain ⟨value, located⟩ := exists_find_of_mem member
    simp [located]

@[simp] theorem find_empty (key : κ) :
    (∅ : OrdDict κ ν).find key = none :=
  rfl

/-- The entries after adding a key that was absent. -/
theorem entries_insertNew_of_not_mem
    {dict : OrdDict κ ν} {key : κ} (value : ν)
    (absent : key ∉ dict) :
    (dict.insertNew key value).entries = dict.entries ++ [(key, value)] := by
  simp [insertNew, absent]

/-- Adding a key that is present changes nothing. -/
theorem insertNew_of_mem
    {dict : OrdDict κ ν} {key : κ} (value : ν)
    (present : key ∈ dict) :
    dict.insertNew key value = dict := by
  simp [insertNew, present]

@[simp] theorem mem_insertNew
    {dict : OrdDict κ ν} {key query : κ} {value : ν} :
    query ∈ dict.insertNew key value ↔ query = key ∨ query ∈ dict := by
  by_cases present : key ∈ dict
  · rw [insertNew_of_mem value present]
    constructor
    · exact Or.inr
    · rintro (rfl | member)
      · exact present
      · exact member
  · simp only [mem_iff_exists, entries_insertNew_of_not_mem value present,
      List.mem_append, List.mem_singleton, Prod.mk.injEq]
    grind

/-- Lookup after adding a key: an old value is never replaced. -/
theorem find_insertNew
    (dict : OrdDict κ ν) (key query : κ) (value : ν) :
    (dict.insertNew key value).find query =
      if query = key ∧ key ∉ dict then some value else dict.find query := by
  by_cases present : key ∈ dict
  · simp [insertNew_of_mem value present, present]
  · simp only [find, entries_insertNew_of_not_mem value present,
      List.find?_append]
    by_cases sameKey : query = key
    · subst sameKey
      have missing := find_eq_none.mpr present
      simp only [find, Option.map_eq_none_iff] at missing
      simp [missing, present]
    · have other : ¬ key = query := fun same => sameKey same.symm
      simp [sameKey, other]

/-- Lookup after adding a list of entries: the first value of a key stays. -/
theorem find_foldl_insertNew [BEq κ] [LawfulBEq κ]
    (entries : List (κ × ν)) (dict : OrdDict κ ν) (query : κ) :
    (entries.foldl (fun dict entry => dict.insertNew entry.1 entry.2) dict).find query =
      (dict.find query).or (entries.lookup query) := by
  induction entries generalizing dict with
  | nil => simp
  | cons entry rest inductionHypothesis =>
      obtain ⟨key, value⟩ := entry
      rw [List.foldl_cons, inductionHypothesis, find_insertNew]
      by_cases sameKey : query = key
      · subst sameKey
        rw [List.lookup_cons_self]
        by_cases present : query ∈ dict
        · obtain ⟨old, held⟩ := exists_find_of_mem present
          simp [present, held]
        · simp [present, find_eq_none.mpr present]
      · rw [if_neg fun both => sameKey both.1, List.lookup_cons,
          beq_eq_false_iff_ne.mpr sameKey]

omit [DecidableEq κ] in
@[simp] theorem mem_filterKeys
    {dict : OrdDict κ ν} {keep : κ → Bool} {query : κ} :
    query ∈ dict.filterKeys keep ↔ query ∈ dict ∧ keep query = true := by
  simp only [mem_iff_exists, filterKeys, List.mem_filter]
  grind

/-- Lookup in a filtered dictionary. -/
theorem find_filterKeys
    (dict : OrdDict κ ν) (keep : κ → Bool) (query : κ) :
    (dict.filterKeys keep).find query =
      if keep query = true then dict.find query else none := by
  split
  next kept =>
    cases found : dict.find query with
    | none =>
        rw [find_eq_none] at found ⊢
        exact fun member => found (mem_filterKeys.mp member).1
    | some value =>
        rw [find_eq_some] at found ⊢
        exact List.mem_filter.mpr ⟨found, kept⟩
  next dropped =>
    rw [find_eq_none]
    exact fun member => dropped (mem_filterKeys.mp member).2

@[simp] theorem mem_erase
    {dict : OrdDict κ ν} {key query : κ} :
    query ∈ dict.erase key ↔ query ∈ dict ∧ query ≠ key := by
  simp [erase]

/-- Removing an absent key changes nothing. -/
theorem erase_of_not_mem
    {dict : OrdDict κ ν} {key : κ} (absent : key ∉ dict) :
    dict.erase key = dict := by
  have kept : dict.entries.filter (fun entry => decide (entry.1 ≠ key)) =
      dict.entries := by
    rw [List.filter_eq_self]
    intro entry member
    rw [decide_eq_true_eq]
    rintro rfl
    exact absent (mem_iff_exists.mpr ⟨entry.2, member⟩)
  simp only [erase, filterKeys, kept]

/-- Lookup after removing a key. -/
theorem find_erase
    (dict : OrdDict κ ν) (key query : κ) :
    (dict.erase key).find query =
      if query = key then none else dict.find query := by
  rw [erase, find_filterKeys]
  by_cases same : query = key <;> simp [same]

@[simp] theorem keys_modify
    (dict : OrdDict κ ν) (key : κ) (change : ν → ν) :
    (dict.modify key change).keys = dict.keys := by
  simp [keys, modify, List.map_map, Function.comp_def]

@[simp] theorem mem_modify
    {dict : OrdDict κ ν} {key query : κ} {change : ν → ν} :
    query ∈ dict.modify key change ↔ query ∈ dict := by
  rw [← mem_keys, keys_modify, mem_keys]

/-- Lookup after changing one value. -/
theorem find_modify
    (dict : OrdDict κ ν) (key query : κ) (change : ν → ν) :
    (dict.modify key change).find query =
      if query = key then (dict.find query).map change
      else dict.find query := by
  cases found : dict.find query with
  | none =>
      have absent : query ∉ dict.modify key change := by
        rw [mem_modify]
        exact find_eq_none.mp found
      simp [find_eq_none.mpr absent]
  | some value =>
      have member := find_eq_some.mp found
      have changed :
          (query, if query = key then change value else value) ∈
            (dict.modify key change).entries :=
        List.mem_map.mpr ⟨(query, value), member, rfl⟩
      rw [find_eq_some.mpr changed]
      by_cases same : query = key <;> simp [same]

omit [DecidableEq κ] in
@[simp] theorem keys_mapVal
    (dict : OrdDict κ ν) (change : ν → μ) :
    (dict.mapVal change).keys = dict.keys := by
  simp [keys, mapVal, List.map_map, Function.comp_def]

omit [DecidableEq κ] in
@[simp] theorem mem_mapVal
    {dict : OrdDict κ ν} {query : κ} {change : ν → μ} :
    query ∈ dict.mapVal change ↔ query ∈ dict := by
  rw [← mem_keys, keys_mapVal, mem_keys]

/-- Lookup commutes with a map over the values. -/
theorem find_mapVal
    (dict : OrdDict κ ν) (change : ν → μ) (query : κ) :
    (dict.mapVal change).find query = (dict.find query).map change := by
  cases found : dict.find query with
  | none =>
      have absent : query ∉ dict.mapVal change := by
        rw [mem_mapVal]
        exact find_eq_none.mp found
      simp [find_eq_none.mpr absent]
  | some value =>
      exact find_eq_some.mpr
        (List.mem_map.mpr ⟨(query, value), find_eq_some.mp found, rfl⟩)

/-- `add?` succeeds exactly on an absent key, and then appends it. -/
theorem add?_eq_some
    {dict result : OrdDict κ ν} {key : κ} {value : ν} :
    dict.add? key value = some result ↔
      key ∉ dict ∧ dict.insertNew key value = result := by
  by_cases present : key ∈ dict <;> simp [add?, present]

end Lookup

end OrdDict
