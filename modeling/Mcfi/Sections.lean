import Mcfi.Kv
import Mcfi.Lib.Delimited

namespace Mcfi

open Delimited

/-!
# Metadata sections

The compiler writes the metadata of a module as texts with a NUL behind each.
The runtime's parsers move a cursor over such a section: they take the string up
to a symbol, patch the symbol into a NUL, and go on behind it.
-/

/-- A string; a name is the string that the pool holds one copy of. -/
abbrev Text := List Char

/-- `substr(start, count)`. -/
def substr (text : Text) (start count : Nat) : Text :=
  (text.drop start).take count

/-- The NUL byte. -/
def nul : Char := Char.ofNat 0

/-- The newline byte. -/
def newline : Char := Char.ofNat 10

/-- A string that the compiler prints has no control characters. -/
structure Printed where
  text : Text
  printable : ∀ c ∈ text, 32 ≤ c.toNat

/-- The literal names of a program are checked by evaluation. -/
instance decidablePrintable (text : Text) : Decidable (∀ c ∈ text, 32 ≤ c.toNat) :=
  List.decidableBAll _ _

theorem Printed.ne_control (printed : Printed) {control : Char}
    (small : control.toNat < 32) : ∀ c ∈ printed.text, c ≠ control := by
  rintro c listed rfl
  exact absurd (printed.printable c listed) (by omega)

/-- `EmitMCFIInfo`: a NUL behind each string. -/
def emitMCFIInfo (strings : List Text) : Text :=
  strings.flatMap fun string => string ++ [nul]

theorem emitMCFIInfo_cons (string : Text) (rest : List Text) (behind : Text) :
    emitMCFIInfo (string :: rest) ++ behind =
      string ++ nul :: (emitMCFIInfo rest ++ behind) := by
  simp [emitMCFIInfo]

theorem length_le_emitMCFIInfo (strings : List Text) :
    strings.length ≤ (emitMCFIInfo strings).length := by
  induction strings with
  | nil => exact Nat.le_refl _
  | cons string rest inductionHypothesis =>
      simp only [emitMCFIInfo, List.flatMap_cons, List.length_append,
        List.length_cons] at *
      omega

/-- A cursor in front of a string is not at the end of its section. -/
theorem not_at_end (string rest behind : Text) :
    ¬ (string ++ nul :: (rest ++ behind)).length ≤ behind.length := by
  simp only [List.length_append, List.length_cons]
  omega

section Cursors

/-- Where `next_symbol` stops. -/
def endsAt (symbol : Char) (c : Char) : Bool :=
  c == nul || c == symbol

/--
`_get_string_before_symbol`, on what is left from the cursor on: the string,
whether a NUL ends it, and what is left behind it.
-/
def getStringBeforeSymbol (symbol : Char) (cursor : Text) :
    Rt (Text × Bool × Text) :=
  match scan (endsAt symbol) cursor with
  | none => .error (.pageFault "next_symbol")
  | some (string, found, behind) => .ok (string, found == nul, behind)

/-- A loop `while (!stop)` whose body takes the next string first. -/
def whileNotStop {σ : Type} (symbol : Char) (body : Text → σ → Rt σ) :
    Nat → Text → σ → Rt (σ × Text)
  | 0, _, _ => .error (.diverged "while (!stop)")
  | fuel + 1, cursor, state => do
      let (string, stop, cursor) ← getStringBeforeSymbol symbol cursor
      let state ← body string state
      if stop then
        return (state, cursor)
      else
        whileNotStop symbol body fuel cursor state

/-- Neither the symbol nor a NUL is in a text. -/
def Clear (symbol : Char) (text : Text) : Prop :=
  ∀ c ∈ text, endsAt symbol c = false

variable {symbol : Char} {text behind cursor : Text} {stop : Bool}

theorem clear_iff : Clear symbol text ↔ nul ∉ text ∧ symbol ∉ text := by
  simp only [Clear, endsAt, Bool.or_eq_false_iff, beq_eq_false_iff_ne]
  constructor
  · intro clear
    exact ⟨fun listed => (clear _ listed).1 rfl,
      fun listed => (clear _ listed).2 rfl⟩
  · rintro ⟨noNul, noSymbol⟩ c listed
    exact ⟨fun same => noNul (same ▸ listed), fun same => noSymbol (same ▸ listed)⟩

/-- A printed text is clear of a symbol that is not in it. -/
theorem Printed.clear_iff (printed : Printed) :
    Clear symbol printed.text ↔ symbol ∉ printed.text := by
  rw [Mcfi.clear_iff, and_iff_right]
  exact fun listed => printed.ne_control (by decide) nul listed rfl

/-- The string that is taken is clear. -/
theorem getStringBeforeSymbol_ok
    (taken : getStringBeforeSymbol symbol cursor = .ok (text, stop, behind)) :
    ∃ delimiter, endsAt symbol delimiter = true ∧ stop = (delimiter == nul) ∧
      cursor = text ++ delimiter :: behind ∧ Clear symbol text := by
  unfold getStringBeforeSymbol at taken
  split at taken
  next => cases taken
  next string found left scanned =>
    cases taken
    obtain ⟨split, atEnd, clear⟩ := scan_eq_some.mp scanned
    exact ⟨found, atEnd, rfl, split, clear⟩

/-- A clear text in front of the symbol. -/
theorem getStringBeforeSymbol_symbol (clear : Clear symbol text)
    (proper : symbol ≠ nul) :
    getStringBeforeSymbol symbol (text ++ symbol :: behind) =
      .ok (text, false, behind) := by
  have found : scan (endsAt symbol) (text ++ symbol :: behind) =
      some (text, symbol, behind) := scan_append clear (by simp [endsAt])
  rw [getStringBeforeSymbol, found]
  simp [proper]

/-- A clear text in front of a NUL. -/
theorem getStringBeforeSymbol_nul (clear : Clear symbol text) :
    getStringBeforeSymbol symbol (text ++ nul :: behind) =
      .ok (text, true, behind) := by
  have found : scan (endsAt symbol) (text ++ nul :: behind) =
      some (text, nul, behind) := scan_append clear (by simp [endsAt])
  rw [getStringBeforeSymbol, found]
  simp

variable {σ : Type} {body : Text → σ → Rt σ} {state result : σ}

/-- What the body keeps, for the clear strings it is given, the loop keeps. -/
theorem whileNotStop_keeps {fuel : Nat} (Keeps : σ → Prop)
    (kept : ∀ string before after, Clear symbol string → Keeps before →
      body string before = .ok after → Keeps after)
    (initial : Keeps state)
    (returned : whileNotStop symbol body fuel cursor state =
      .ok (result, behind)) : Keeps result := by
  induction fuel generalizing cursor state with
  | zero => cases returned
  | succ fuel inductionHypothesis =>
      rw [whileNotStop, bind_eq_ok] at returned
      obtain ⟨⟨string, stop, left⟩, taken, returned⟩ := returned
      rw [bind_eq_ok] at returned
      obtain ⟨next, run, returned⟩ := returned
      obtain ⟨_, _, _, _, clear⟩ := getStringBeforeSymbol_ok taken
      have keeps := kept string state next clear initial run
      cases stop with
      | true =>
          cases returned
          exact keeps
      | false => exact inductionHypothesis keeps returned

/-- On joined texts the loop takes each of them. -/
theorem whileNotStop_joined {fuel : Nat} {first : Text} {rest : List Text}
    (proper : symbol ≠ nul) (clear : ∀ text ∈ first :: rest, Clear symbol text)
    (enough : rest.length < fuel) :
    whileNotStop symbol body fuel ([symbol].intercalate (first :: rest) ++ nul :: behind)
        state =
      (first :: rest).foldlM (fun state string => body string state) state >>=
        fun state => .ok (state, behind) := by
  induction rest generalizing first fuel state with
  | nil =>
      obtain ⟨fuel, rfl⟩ := Nat.exists_eq_succ_of_ne_zero (by omega : fuel ≠ 0)
      rw [whileNotStop, List.intercalate_singleton,
        getStringBeforeSymbol_nul (clear first List.mem_cons_self),
        List.foldlM_cons]
      change body first state >>= _ = _
      cases body first state with
      | error fault => rfl
      | ok next => rfl
  | cons next others inductionHypothesis =>
      obtain ⟨fuel, rfl⟩ := Nat.exists_eq_succ_of_ne_zero (by omega : fuel ≠ 0)
      rw [whileNotStop, intercalate_cons, List.append_assoc, List.cons_append,
        getStringBeforeSymbol_symbol (clear first List.mem_cons_self) proper,
        List.foldlM_cons]
      change body first state >>= _ = _
      cases body first state with
      | error fault => rfl
      | ok changed =>
          exact inductionHypothesis
            (fun text listed => clear text (List.mem_cons_of_mem _ listed))
            (by simpa using enough)

/-- On a text without NULs the loop takes the pieces between the symbols. -/
theorem whileNotStop_splitOn (proper : symbol ≠ nul) (noNul : nul ∉ text) :
    whileNotStop symbol body (text.length + 1) (text ++ [nul]) state =
      (text.splitOn symbol).foldlM (fun state string => body string state) state >>=
        fun state => .ok (state, []) := by
  obtain ⟨first, rest, pieces⟩ :=
    List.exists_cons_of_ne_nil (List.splitOn_ne_nil symbol text)
  have back : [symbol].intercalate (first :: rest) = text := by
    rw [← pieces, List.intercalate_splitOn]
  have clear : ∀ piece ∈ first :: rest, Clear symbol piece := by
    intro piece listed
    refine clear_iff.mpr ⟨fun never => noNul ?_, ?_⟩
    · rw [← back]
      exact mem_intercalate listed never
    · rw [← pieces] at listed
      exact not_mem_of_mem_splitOn listed
  have short := length_le_intercalate symbol first rest
  rw [back] at short
  have taken := @whileNotStop_joined symbol [] σ body state (text.length + 1) first
    rest proper clear (by omega)
  rw [back] at taken
  rw [taken, pieces]

end Cursors

end Mcfi
