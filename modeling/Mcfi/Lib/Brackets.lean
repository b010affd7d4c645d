import Mathlib.Data.List.Infix
import Mathlib.Tactic.Common

/-!
# Backward scans over brackets

A text is scanned one character after the other from its last one on; the list
here is the text in the order of the scan.  `seek` goes on to a character that
stops it and `close` to the bracket that opens the one just passed.  Neither goes
past the last element.
-/

namespace Brackets

section Seek

variable {α : Type}

/-- Go on to the first element that stops the scan, or to the last one. -/
def seek (stop : α → Bool) : List α → List α
  | [] => []
  | [last] => [last]
  | head :: next :: rest =>
      if stop head then head :: next :: rest else seek stop (next :: rest)

variable {stop : α → Bool}

/-- A scan passes elements that do not stop it. -/
theorem seek_append {skipped rest : List α} {head : α}
    (clean : ∀ item ∈ skipped, stop item = false)
    (stops : stop head = true ∨ rest = []) :
    seek stop (skipped ++ head :: rest) = head :: rest := by
  induction skipped with
  | nil =>
      cases rest with
      | nil =>
          rfl
      | cons next others =>
          rcases stops with stopsHere | atEnd
          · exact if_pos stopsHere
          · cases atEnd
  | cons item others inductionHypothesis =>
      have later := inductionHypothesis fun other listed =>
        clean other (List.mem_cons_of_mem _ listed)
      have goesOn : stop item = false := clean item List.mem_cons_self
      cases others with
      | nil =>
          rw [List.cons_append, List.nil_append, seek, goesOn]
          exact later
      | cons next behind =>
          rw [List.cons_append, List.cons_append, seek, goesOn]
          exact later

/-- Where a scan ends. -/
theorem exists_seek (first : α) (others : List α) :
    ∃ skipped head rest, first :: others = skipped ++ head :: rest ∧
      (∀ item ∈ skipped, stop item = false) ∧
      (stop head = true ∨ rest = []) ∧
      seek stop (first :: others) = head :: rest := by
  induction others generalizing first with
  | nil =>
      exact ⟨[], first, [], rfl, (fun _ never => nomatch never), .inr rfl, rfl⟩
  | cons next behind inductionHypothesis =>
      cases stops : stop first with
      | true =>
          exact ⟨[], first, next :: behind, rfl, (fun _ never => nomatch never),
            .inl stops, if_pos stops⟩
      | false =>
          obtain ⟨skipped, head, rest, split, clean, ended, found⟩ :=
            inductionHypothesis next
          refine ⟨first :: skipped, head, rest, by rw [split]; rfl, ?_, ended, ?_⟩
          · intro item listed
            rcases List.mem_cons.mp listed with rfl | inSkipped
            · exact stops
            · exact clean item inSkipped
          · rw [seek, stops]
            exact found

end Seek

section Close

variable {α : Type} [DecidableEq α] (opening closing : α)

/--
Go on to the bracket that opens the innermost of `depth` closed ones, or to the
last element.
-/
def close : Nat → List α → List α
  | _, [] => []
  | _, [last] => [last]
  | depth, head :: next :: rest =>
      if head = closing then
        close (depth + 1) (next :: rest)
      else if head = opening then
        if depth - 1 = 0 then head :: next :: rest
        else close (depth - 1) (next :: rest)
      else
        close depth (next :: rest)

/-- What is read while `depth` more brackets are open than at the end of it. -/
structure Nested (depth : Nat) (inside : List α) : Prop where
  even : inside.count opening = depth + inside.count closing
  covered : ∀ read, read <+: inside → read.count opening ≤ depth + read.count closing

variable {opening closing} {depth : Nat} {inside rest : List α} {head : α}

theorem nested_nil : Nested opening closing depth ([] : List α) ↔ depth = 0 := by
  constructor
  · intro nested
    exact (Nat.add_eq_zero_iff.mp nested.even.symm).left
  · rintro rfl
    exact ⟨rfl, fun read isPrefix => by rw [List.prefix_nil.mp isPrefix]; exact Nat.zero_le _⟩

/--
Reading one more element, of which `opens` are opening and `closes` closing brackets,
changes the depth by their difference.
-/
theorem nested_cons (opens closes : Nat) {after : Nat}
    (countOpening : ∀ read : List α,
      (head :: read).count opening = read.count opening + opens)
    (countClosing : ∀ read : List α,
      (head :: read).count closing = read.count closing + closes)
    (changes : depth + closes = after + opens) :
    Nested opening closing depth (head :: inside) ↔
      Nested opening closing after inside := by
  constructor
  · intro nested
    refine ⟨?_, fun read isPrefix => ?_⟩
    · have even := nested.even
      rw [countOpening, countClosing] at even
      omega
    · have covered := nested.covered (head :: read)
        ((List.prefix_cons_inj head).mpr isPrefix)
      rw [countOpening, countClosing] at covered
      omega
  · intro nested
    refine ⟨?_, fun read isPrefix => ?_⟩
    · rw [countOpening, countClosing, nested.even]
      omega
    · rcases List.prefix_cons_iff.mp isPrefix with rfl | ⟨others, rfl, inRest⟩
      · exact Nat.zero_le _
      · have covered := nested.covered others inRest
        rw [countOpening, countClosing]
        omega

/-- A bracket that closes another one is read. -/
theorem nested_closing (distinct : opening ≠ closing) :
    Nested opening closing depth (closing :: inside) ↔
      Nested opening closing (depth + 1) inside :=
  nested_cons 0 1 (fun _ => List.count_cons_of_ne distinct.symm)
    (fun _ => List.count_cons_self) rfl

/-- A bracket that opens is read: it opens one that was closed before. -/
theorem nested_opening (distinct : opening ≠ closing) :
    Nested opening closing depth (opening :: inside) ↔
      0 < depth ∧ Nested opening closing (depth - 1) inside := by
  have whenOpen : 0 < depth → (Nested opening closing depth (opening :: inside) ↔
      Nested opening closing (depth - 1) inside) := fun positive =>
    nested_cons 1 0 (fun _ => List.count_cons_self)
      (fun _ => List.count_cons_of_ne distinct) (Nat.sub_add_cancel positive).symm
  constructor
  · intro nested
    have covered := nested.covered [opening]
      ((List.prefix_cons_inj opening).mpr List.nil_prefix)
    rw [List.count_cons_self, List.count_cons_of_ne distinct] at covered
    exact ⟨covered, (whenOpen covered).mp nested⟩
  · rintro ⟨positive, nested⟩
    exact (whenOpen positive).mpr nested

/-- Anything else leaves the depth. -/
theorem nested_other (notOpening : head ≠ opening) (notClosing : head ≠ closing) :
    Nested opening closing depth (head :: inside) ↔
      Nested opening closing depth inside :=
  nested_cons 0 0 (fun _ => List.count_cons_of_ne notOpening)
    (fun _ => List.count_cons_of_ne notClosing) rfl

/-- A scan passes what is nested and stops at the bracket that opens it. -/
theorem close_append (distinct : opening ≠ closing)
    (nested : Nested opening closing depth inside) :
    close opening closing (depth + 1) (inside ++ opening :: rest) =
      opening :: rest := by
  induction inside generalizing depth with
  | nil =>
      obtain rfl := nested_nil.mp nested
      cases rest with
      | nil =>
          rfl
      | cons next behind =>
          rw [List.nil_append, close, if_neg distinct, if_pos rfl]
          exact if_pos rfl
  | cons item others inductionHypothesis =>
      obtain ⟨next, behind, split⟩ :
          ∃ next behind, others ++ opening :: rest = next :: behind := by
        cases others with
        | nil => exact ⟨_, _, rfl⟩
        | cons next behind => exact ⟨_, _, rfl⟩
      rw [List.cons_append, split, close, ← split]
      by_cases isClosing : item = closing
      · subst isClosing
        rw [if_pos rfl]
        exact inductionHypothesis ((nested_closing distinct).mp nested)
      · rw [if_neg isClosing]
        by_cases isOpening : item = opening
        · subst isOpening
          obtain ⟨positive, deeper⟩ := (nested_opening distinct).mp nested
          have more := inductionHypothesis deeper
          rw [Nat.sub_add_cancel positive] at more
          rw [if_pos rfl, Nat.add_sub_cancel, if_neg (Nat.pos_iff_ne_zero.mp positive)]
          exact more
        · rw [if_neg isOpening]
          exact inductionHypothesis ((nested_other isOpening isClosing).mp nested)

/-- Where the scan ends. -/
theorem exists_close (distinct : opening ≠ closing) (depth : Nat)
    (first : α) (others : List α) :
    ∃ inside head rest, first :: others = inside ++ head :: rest ∧
      (head = opening ∧ Nested opening closing depth inside ∨ rest = []) ∧
      close opening closing (depth + 1) (first :: others) = head :: rest := by
  induction others generalizing first depth with
  | nil =>
      exact ⟨[], first, [], rfl, .inr rfl, rfl⟩
  | cons next behind inductionHypothesis =>
      rw [close]
      by_cases isClosing : first = closing
      · subst isClosing
        obtain ⟨inside, head, rest, split, ended, found⟩ :=
          inductionHypothesis (depth + 1) next
        refine ⟨first :: inside, head, rest, by rw [split]; rfl,
          ended.imp_left (And.imp_right (nested_closing distinct).mpr), ?_⟩
        rw [if_pos rfl]
        exact found
      · rw [if_neg isClosing]
        by_cases isOpening : first = opening
        · subst isOpening
          rw [if_pos rfl, Nat.add_sub_cancel]
          cases depth with
          | zero =>
              exact ⟨[], first, next :: behind, rfl, .inl ⟨rfl, nested_nil.mpr rfl⟩,
                if_pos rfl⟩
          | succ depth =>
              obtain ⟨inside, head, rest, split, ended, found⟩ :=
                inductionHypothesis depth next
              refine ⟨first :: inside, head, rest, by rw [split]; rfl,
                ended.imp_left (And.imp_right fun nested =>
                  (nested_opening distinct).mpr ⟨Nat.succ_pos depth, nested⟩), ?_⟩
              rw [if_neg (Nat.succ_ne_zero depth)]
              exact found
        · obtain ⟨inside, head, rest, split, ended, found⟩ :=
            inductionHypothesis depth next
          refine ⟨first :: inside, head, rest, by rw [split]; rfl,
            ended.imp_left (And.imp_right (nested_other isOpening isClosing).mpr), ?_⟩
          rw [if_neg isOpening]
          exact found

end Close

end Brackets
