import Mathlib.Data.List.Basic
import Mathlib.Tactic.Common

/-!
# Texts in front of delimiters

A text is read up to the first delimiter.  What is written as texts with a
delimiter behind each reads back as the same texts exactly when no delimiter
occurs in one of them.
-/

namespace Delimited

variable {α : Type} (ends : α → Bool)

/-- Read up to the first delimiter: what is before it, it, and what is behind it. -/
def scan : List α → Option (List α × α × List α)
  | [] => none
  | head :: rest =>
      if ends head then
        some ([], head, rest)
      else
        match scan rest with
        | none => none
        | some (text, delimiter, behind) => some (head :: text, delimiter, behind)

variable {ends} {text input behind : List α} {delimiter : α}

/-- A scan stops at the first delimiter. -/
theorem scan_eq_some :
    scan ends input = some (text, delimiter, behind) ↔
      input = text ++ delimiter :: behind ∧ ends delimiter = true ∧
        ∀ item ∈ text, ends item = false := by
  induction input generalizing text with
  | nil =>
      simp [scan]
  | cons head rest inductionHypothesis =>
      rw [scan]
      cases stops : ends head with
      | true =>
          rw [if_pos rfl, Option.some.injEq, Prod.mk.injEq, Prod.mk.injEq]
          constructor
          · rintro ⟨rfl, rfl, rfl⟩
            exact ⟨rfl, stops, fun _ never => nomatch never⟩
          · rintro ⟨split, _, clean⟩
            cases text with
            | nil =>
                cases split
                exact ⟨rfl, rfl, rfl⟩
            | cons item others =>
                cases split
                have goesOn := clean head List.mem_cons_self
                rw [stops] at goesOn
                cases goesOn
      | false =>
          rw [if_neg (by simp)]
          constructor
          · intro scanned
            split at scanned
            next => cases scanned
            next inner delimiter' behind' found =>
              cases scanned
              obtain ⟨rfl, atEnd, clean⟩ := inductionHypothesis.mp found
              refine ⟨rfl, atEnd, fun item listed => ?_⟩
              rcases List.mem_cons.mp listed with rfl | inInner
              · exact stops
              · exact clean item inInner
          · rintro ⟨split, atEnd, clean⟩
            cases text with
            | nil =>
                cases split
                rw [stops] at atEnd
                cases atEnd
            | cons item others =>
                cases split
                have found := inductionHypothesis.mpr ⟨rfl, atEnd,
                  fun other listed => clean other (List.mem_cons_of_mem _ listed)⟩
                rw [found]

/-- A text without delimiters is read back. -/
theorem scan_append (clean : ∀ item ∈ text, ends item = false)
    (atEnd : ends delimiter = true) :
    scan ends (text ++ delimiter :: behind) = some (text, delimiter, behind) :=
  scan_eq_some.mpr ⟨rfl, atEnd, clean⟩

/-- A text is read over as far as its items are, when what is behind it stops that. -/
theorem takeWhile_append_stops {passes : α → Bool} (inside : ∀ item ∈ text, passes item = true)
    (stops : ∀ item ∈ behind.head?, passes item = false) :
    (text ++ behind).takeWhile passes = text := by
  rw [List.takeWhile_append_of_pos inside]
  cases behind with
  | nil => simp
  | cons item rest => simp [stops item rfl]

/-- Joining texts, one step. -/
theorem intercalate_cons (separator : α) (first next : List α)
    (rest : List (List α)) :
    [separator].intercalate (first :: next :: rest) =
      first ++ separator :: [separator].intercalate (next :: rest) := by
  simp

/-- What is in a text is in the joined texts. -/
theorem mem_intercalate {separator item : α} {text : List α}
    {texts : List (List α)} (listed : text ∈ texts) (inside : item ∈ text) :
    item ∈ [separator].intercalate texts := by
  induction texts with
  | nil => cases listed
  | cons first rest inductionHypothesis =>
      cases rest with
      | nil =>
          rw [List.mem_singleton] at listed
          simpa [listed] using inside
      | cons next others =>
          rw [intercalate_cons]
          rcases List.mem_cons.mp listed with rfl | later
          · exact List.mem_append_left _ inside
          · exact List.mem_append_right _
              (List.mem_cons_of_mem _ (inductionHypothesis later))

/-- What is in the joined texts is the separator, or in a text. -/
theorem of_mem_intercalate {separator item : α} {texts : List (List α)}
    (inside : item ∈ [separator].intercalate texts) :
    item = separator ∨ ∃ text ∈ texts, item ∈ text := by
  induction texts with
  | nil => cases inside
  | cons first rest inductionHypothesis =>
      cases rest with
      | nil =>
          rw [List.intercalate_singleton] at inside
          exact Or.inr ⟨first, List.mem_cons_self, inside⟩
      | cons next others =>
          rw [intercalate_cons, List.mem_append, List.mem_cons] at inside
          rcases inside with here | rfl | later
          · exact Or.inr ⟨first, List.mem_cons_self, here⟩
          · exact Or.inl rfl
          · exact (inductionHypothesis later).imp_right fun ⟨text, listed, held⟩ =>
              ⟨text, List.mem_cons_of_mem _ listed, held⟩

/-- There are no more texts than items and the one behind them. -/
theorem length_le_intercalate (separator : α) (first : List α)
    (rest : List (List α)) :
    rest.length ≤ ([separator].intercalate (first :: rest)).length := by
  induction rest generalizing first with
  | nil => exact Nat.zero_le _
  | cons next others inductionHypothesis =>
      rw [intercalate_cons, List.length_append, List.length_cons, List.length_cons]
      have inner := inductionHypothesis next
      omega

/-- Writing a separator behind every text and erasing the last one joins them. -/
theorem dropLast_separated (separator : α) (first : List α)
    (rest : List (List α)) :
    ((first :: rest).flatMap fun text => text ++ [separator]).dropLast =
      [separator].intercalate (first :: rest) := by
  induction rest generalizing first with
  | nil => simp
  | cons next others inductionHypothesis =>
      have nonempty :
          ((next :: others).flatMap fun text => text ++ [separator]) ≠ [] := by
        simp
      rw [List.flatMap_cons, List.dropLast_append_of_ne_nil nonempty,
        inductionHypothesis, intercalate_cons, List.append_assoc]
      rfl

/-- Writing a separator in front of every text joins them behind one. -/
theorem flatMap_separated (separator : α) (first : List α)
    (rest : List (List α)) :
    ((first :: rest).flatMap fun text => separator :: text) =
      separator :: [separator].intercalate (first :: rest) := by
  induction rest generalizing first with
  | nil => simp
  | cons next others inductionHypothesis =>
      rw [List.flatMap_cons, inductionHypothesis, intercalate_cons, List.cons_append]

section Split

variable [DecidableEq α]

/-- Joined texts without separators determine the texts. -/
theorem intercalate_inj {separator : α} {texts others : List (List α)}
    (clean : ∀ text ∈ texts, separator ∉ text)
    (otherClean : ∀ text ∈ others, separator ∉ text)
    (some : texts ≠ []) (otherSome : others ≠ [])
    (same : [separator].intercalate texts = [separator].intercalate others) :
    texts = others := by
  rw [← List.splitOn_intercalate separator clean some, same,
    List.splitOn_intercalate separator otherClean otherSome]

/-- The pieces of a split have no separators. -/
theorem not_mem_of_mem_splitOn {separator : α} {text input : List α}
    (piece : text ∈ input.splitOn separator) : separator ∉ text := by
  induction input generalizing text with
  | nil =>
      rw [List.splitOn_nil, List.mem_singleton] at piece
      subst piece
      exact List.not_mem_nil
  | cons head rest inductionHypothesis =>
      rw [List.splitOn_cons_eq_if_modifyHead] at piece
      obtain ⟨first, others, pieces⟩ := List.exists_cons_of_ne_nil
        (List.splitOn_ne_nil separator rest)
      rw [pieces] at piece inductionHypothesis
      split at piece
      next =>
        rcases List.mem_cons.mp piece with rfl | old
        · exact List.not_mem_nil
        · exact inductionHypothesis old
      next other =>
        rcases List.mem_cons.mp piece with rfl | old
        · have clean := inductionHypothesis List.mem_cons_self
          rw [List.mem_cons, not_or]
          exact ⟨fun same => other (by simp [same]), clean⟩
        · exact inductionHypothesis (List.mem_cons_of_mem _ old)

/-- Joined texts split back exactly when no separator occurs in one of them. -/
theorem splitOn_intercalate_iff {separator : α} {texts : List (List α)}
    (some : texts ≠ []) :
    ([separator].intercalate texts).splitOn separator = texts ↔
      ∀ text ∈ texts, separator ∉ text := by
  constructor
  · intro back text listed
    rw [← back] at listed
    exact not_mem_of_mem_splitOn listed
  · exact fun clean => List.splitOn_intercalate separator clean some

end Split

end Delimited
