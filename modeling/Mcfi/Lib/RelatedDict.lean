import Mathlib.Data.List.Forall2
import Mathlib.Data.Option.Basic
import Mathlib.Logic.Relator
import Mcfi.Lib.LinkMap

/-!
# Dictionaries with related entries

Two dictionaries whose entries are related one by one, the keys by a relation that
is one-to-one.  The operations keep them related: what one finds under a key the
other finds under the related key, and an insertion adds to both or to neither.
-/

namespace OrdDict

variable {κ κ' ν ν' : Type}

/-- The entries of two dictionaries are related one by one. -/
def Related (keys : κ → κ' → Prop) (values : ν → ν' → Prop)
    (first : OrdDict κ ν) (second : OrdDict κ' ν') : Prop :=
  List.Forall₂ (fun entry other => keys entry.1 other.1 ∧ values entry.2 other.2)
    first.entries second.entries

namespace Related

variable {keys : κ → κ' → Prop} {values : ν → ν' → Prop}
  {first : OrdDict κ ν} {second : OrdDict κ' ν'} {key : κ} {other : κ'}

theorem empty : Related keys values (∅ : OrdDict κ ν) (∅ : OrdDict κ' ν') :=
  List.Forall₂.nil

theorem mono {moreKeys : κ → κ' → Prop} {moreValues : ν → ν' → Prop}
    (related : Related keys values first second)
    (keysGrow : ∀ key other, keys key other → moreKeys key other)
    (valuesGrow : ∀ value other, values value other → moreValues value other) :
    Related moreKeys moreValues first second :=
  related.imp fun _ _ ⟨sameKey, sameValue⟩ =>
    ⟨keysGrow _ _ sameKey, valuesGrow _ _ sameValue⟩

/-- The keys are related one by one. -/
theorem keys_forall₂ (related : Related keys values first second) :
    List.Forall₂ keys first.keys second.keys := by
  unfold OrdDict.keys
  rw [List.forall₂_map_left_iff, List.forall₂_map_right_iff]
  exact related.imp fun _ _ both => both.1

/-- The values are related one by one. -/
theorem values_forall₂ (related : Related keys values first second) :
    List.Forall₂ values (first.entries.map Prod.snd) (second.entries.map Prod.snd) := by
  rw [List.forall₂_map_left_iff, List.forall₂_map_right_iff]
  exact related.imp fun _ _ both => both.2

/-- Keys are equal when the related keys are. -/
private theorem key_eq_iff {more : κ} {otherMore : κ'} (unique : Relator.BiUnique keys)
    (pair : keys key other) (morePair : keys more otherMore) :
    key = more ↔ other = otherMore :=
  Relator.rel_eq unique pair morePair

/-- Related lists have related elements at related places. -/
private theorem mem_iff_of_forall₂ {left : List κ} {right : List κ'}
    (unique : Relator.BiUnique keys) (related : List.Forall₂ keys left right)
    (pair : keys key other) : key ∈ left ↔ other ∈ right := by
  induction related with
  | nil => simp
  | cons headRelated _ inductionHypothesis =>
      rw [List.mem_cons, List.mem_cons, inductionHypothesis,
        key_eq_iff unique pair headRelated]

/-- A key is in the one exactly when the related key is in the other. -/
theorem mem_iff (unique : Relator.BiUnique keys)
    (related : Related keys values first second) (pair : keys key other) :
    key ∈ first ↔ other ∈ second :=
  mem_iff_of_forall₂ unique related.keys_forall₂ pair

variable [DecidableEq κ] [DecidableEq κ']

private theorem find_of_forall₂ {left : List (κ × ν)} {right : List (κ' × ν')}
    (unique : Relator.BiUnique keys) (pair : keys key other)
    (related : List.Forall₂
      (fun entry other => keys entry.1 other.1 ∧ values entry.2 other.2) left right) :
    Option.Rel values ((left.find? fun entry => entry.1 = key).map Prod.snd)
      ((right.find? fun entry => entry.1 = other).map Prod.snd) := by
  induction related with
  | nil => exact Option.Rel.none
  | @cons entry otherEntry _ _ headRelated _ inductionHypothesis =>
      have same := key_eq_iff unique headRelated.1 pair
      rw [List.find?_cons, List.find?_cons]
      by_cases found : entry.1 = key
      · rw [decide_eq_true found, decide_eq_true (same.mp found)]
        exact Option.Rel.some headRelated.2
      · rw [decide_eq_false found, decide_eq_false (mt same.mpr found)]
        exact inductionHypothesis

/-- What is found under related keys is related. -/
theorem find_cases (unique : Relator.BiUnique keys)
    (related : Related keys values first second) (pair : keys key other) :
    (first.find key = none ∧ second.find other = none) ∨
      ∃ value otherValue, first.find key = some value ∧
        second.find other = some otherValue ∧ values value otherValue := by
  have found : Option.Rel values (first.find key) (second.find other) :=
    find_of_forall₂ unique pair related
  generalize first.find key = left at found ⊢
  generalize second.find other = right at found ⊢
  cases found with
  | none => exact Or.inl ⟨rfl, rfl⟩
  | some valuePair => exact Or.inr ⟨_, _, rfl, rfl, valuePair⟩

theorem insertNew (unique : Relator.BiUnique keys)
    (related : Related keys values first second) (pair : keys key other)
    {value : ν} {otherValue : ν'} (valuePair : values value otherValue) :
    Related keys values (first.insertNew key value) (second.insertNew other otherValue) := by
  have same := related.mem_iff unique pair
  by_cases present : key ∈ first
  · rw [insertNew_of_mem _ present, insertNew_of_mem _ (same.mp present)]
    exact related
  · unfold Related
    rw [entries_insertNew_of_not_mem _ present,
      entries_insertNew_of_not_mem _ (mt same.mpr present)]
    exact List.rel_append related (List.Forall₂.cons ⟨pair, valuePair⟩ List.Forall₂.nil)

theorem modify (unique : Relator.BiUnique keys)
    (related : Related keys values first second) (pair : keys key other)
    {change : ν → ν} {otherChange : ν' → ν'}
    (changes : ∀ value otherValue, values value otherValue →
      values (change value) (otherChange otherValue)) :
    Related keys values (first.modify key change) (second.modify other otherChange) := by
  unfold Related OrdDict.modify
  rw [List.forall₂_map_left_iff, List.forall₂_map_right_iff]
  apply related.imp
  rintro entry otherEntry ⟨entryKeys, entryValues⟩
  have same := key_eq_iff unique entryKeys pair
  refine ⟨entryKeys, ?_⟩
  by_cases found : entry.1 = key
  · rw [if_pos found, if_pos (same.mp found)]
    exact changes _ _ entryValues
  · rw [if_neg found, if_neg (mt same.mpr found)]
    exact entryValues

end Related

end OrdDict

namespace LinkMap

variable {α α' β β' : Type} {lefts : α → α' → Prop} {rights : β → β' → Prop}

/-- Two finite relations with related links. -/
abbrev Related (lefts : α → α' → Prop) (rights : β → β' → Prop) :
    LinkMap α β → LinkMap α' β' → Prop :=
  OrdDict.Related lefts (OrdDict.Related rights fun _ _ => True)

variable [DecidableEq α] [DecidableEq α'] [DecidableEq β] [DecidableEq β']
  {first : LinkMap α β} {second : LinkMap α' β'}

theorem Related.link (leftUnique : Relator.BiUnique lefts)
    (rightUnique : Relator.BiUnique rights) (related : Related lefts rights first second)
    {left : α} {otherLeft : α'} {right : β} {otherRight : β'}
    (leftPair : lefts left otherLeft) (rightPair : rights right otherRight) :
    Related lefts rights (LinkMap.link first left right)
      (LinkMap.link second otherLeft otherRight) := by
  have known := OrdDict.Related.insertNew leftUnique related leftPair
    (OrdDict.Related.empty : OrdDict.Related rights (fun _ _ => True) ∅ ∅)
  exact known.modify leftUnique leftPair fun _ _ targets =>
    targets.insertNew rightUnique rightPair trivial

theorem Related.join {firstGraph : LinkMap α α} {secondGraph : LinkMap α' α'}
    (unique : Relator.BiUnique lefts)
    (related : Related lefts lefts firstGraph secondGraph)
    {left right : α} {otherLeft otherRight : α'}
    (leftPair : lefts left otherLeft) (rightPair : lefts right otherRight) :
    Related lefts lefts (LinkMap.join firstGraph left right)
      (LinkMap.join secondGraph otherLeft otherRight) :=
  (related.link unique unique leftPair rightPair).link unique unique rightPair leftPair

end LinkMap
