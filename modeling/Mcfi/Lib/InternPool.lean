import Mathlib.Data.List.Nodup
import Mathlib.Logic.Relator
import Mathlib.Tactic.Common

/-!
# Interning

A pool holds one copy of each value; the handle of a value is its place.  The pool
only grows, so a handle keeps its value, and within a pool handles and values are
one-to-one.

A program that works on handles follows one that works on the values themselves when
each of its results comes with the related result of the other.  The rules follow the
steps of the two programs, through the pools that the first one leaves.
-/

/-- A pool with one copy of each value. -/
structure InternPool (α : Type) where
  values : List α
  nodup : values.Nodup

namespace InternPool

variable {α : Type} {pool later last : InternPool α} {handle : Nat} {value : α}

/-- The pool without values. -/
def empty : InternPool α where
  values := []
  nodup := List.nodup_nil

/-- A handle's value. -/
def Holds (pool : InternPool α) (handle : Nat) (value : α) : Prop :=
  pool.values[handle]? = some value

/-- The pool after some values were added. -/
def Extends (pool later : InternPool α) : Prop :=
  pool.values <+: later.values

/-- The handle of a value, which is added when it is new. -/
def intern [DecidableEq α] (pool : InternPool α) (value : α) : Nat × InternPool α :=
  if known : value ∈ pool.values then
    (pool.values.idxOf value, pool)
  else
    (pool.values.length,
      { values := pool.values ++ [value]
        nodup := by
          rw [List.nodup_append]
          refine ⟨pool.nodup, List.nodup_singleton value, ?_⟩
          rintro other listed last isLast rfl
          exact known (List.mem_singleton.mp isLast ▸ listed) })

theorem Extends.refl (pool : InternPool α) : pool.Extends pool :=
  List.prefix_refl pool.values

theorem Extends.trans (first : pool.Extends later) (second : later.Extends last) :
    pool.Extends last :=
  List.IsPrefix.trans first second

/-- A handle keeps its value. -/
theorem Holds.extend (holds : pool.Holds handle value) (grows : pool.Extends later) :
    later.Holds handle value := by
  obtain ⟨more, added⟩ := grows
  unfold Holds
  rw [← added, List.getElem?_append_left (List.getElem?_eq_some_iff.mp holds).1]
  exact holds

theorem Holds.mem (holds : pool.Holds handle value) : value ∈ pool.values :=
  List.mem_of_getElem? holds

theorem Holds.lt (holds : pool.Holds handle value) : handle < pool.values.length :=
  (List.getElem?_eq_some_iff.mp holds).1

/-- Handles and values are one-to-one. -/
theorem biUnique_holds (pool : InternPool α) : Relator.BiUnique pool.Holds := by
  constructor
  · intro first second value firstHolds secondHolds
    obtain ⟨firstInside, firstValue⟩ := List.getElem?_eq_some_iff.mp firstHolds
    obtain ⟨secondInside, secondValue⟩ := List.getElem?_eq_some_iff.mp secondHolds
    exact (List.Nodup.getElem_inj_iff pool.nodup).mp (firstValue.trans secondValue.symm)
  · intro handle first second firstHolds secondHolds
    exact Option.some.inj (firstHolds.symm.trans secondHolds)

variable [DecidableEq α]

theorem extends_intern (pool : InternPool α) (value : α) :
    pool.Extends (pool.intern value).2 := by
  unfold intern Extends
  split
  next => exact List.prefix_refl _
  next => exact List.prefix_append _ _

/-- The handle that is given has the value. -/
theorem holds_intern (pool : InternPool α) (value : α) :
    (pool.intern value).2.Holds (pool.intern value).1 value := by
  unfold intern Holds
  split
  next known =>
    rw [List.getElem?_eq_getElem (List.idxOf_lt_length_of_mem known), List.getElem_idxOf]
  next =>
    exact List.getElem?_concat_length

/-- A value that is known is given its handle again. -/
theorem Holds.intern (holds : pool.Holds handle value) : pool.intern value = (handle, pool) := by
  have known := holds.mem
  have given : pool.intern value = (pool.values.idxOf value, pool) := dif_pos known
  have same := holds_intern pool value
  rw [given] at same
  have place : pool.values.idxOf value = handle := (biUnique_holds pool).1 same holds
  rw [given, place]

/-- A value that is new is given a handle that no value had. -/
theorem intern_of_not_mem (fresh : value ∉ pool.values) :
    (pool.intern value).1 = pool.values.length := by
  unfold InternPool.intern
  rw [dif_neg fresh]

section Programs

variable {ε β γ β' γ' : Type}

/-- `intern` as a step of a program. -/
def interning (value : α) : StateT (InternPool α) (Except ε) Nat :=
  fun pool => .ok (pool.intern value)

omit [DecidableEq α] in
/--
Every result of a program on handles comes with a related result of a program on
values.
-/
def Follows (pool : InternPool α) (call : StateT (InternPool α) (Except ε) β)
    (spec : Except ε γ) (related : InternPool α → β → γ → Prop) : Prop :=
  ∀ result later, call pool = .ok (result, later) →
    pool.Extends later ∧ ∃ other, spec = .ok other ∧ related later result other

namespace Follows

variable {call : StateT (InternPool α) (Except ε) β} {spec : Except ε γ}
  {related : InternPool α → β → γ → Prop}
  {next : β → StateT (InternPool α) (Except ε) β'} {specNext : γ → Except ε γ'}
  {nextRelated : InternPool α → β' → γ' → Prop}

omit [DecidableEq α] in
theorem pure {result : β} {other : γ} (pair : related pool result other) :
    Follows pool (Pure.pure result : StateT (InternPool α) (Except ε) β) (.ok other)
      related := by
  intro returned later run
  cases run
  exact ⟨Extends.refl pool, other, rfl, pair⟩

omit [DecidableEq α] in
/-- One step after the other. -/
theorem bind (first : Follows pool call spec related)
    (second : ∀ later result other, pool.Extends later → related later result other →
      Follows later (next result) (specNext other) nextRelated) :
    Follows pool (call >>= next) (spec >>= specNext) nextRelated := by
  intro returned last run
  cases firstRun : call pool with
  | error fault =>
      change (call pool >>= fun step => next step.1 step.2) = _ at run
      rw [firstRun] at run
      exact nomatch run
  | ok step =>
      obtain ⟨result, later⟩ := step
      change (call pool >>= fun step => next step.1 step.2) = _ at run
      rw [firstRun] at run
      obtain ⟨grows, other, specRun, pair⟩ := first result later firstRun
      obtain ⟨growsMore, last, specLast, lastPair⟩ :=
        second later result other grows pair returned _ run
      exact ⟨grows.trans growsMore, last, by rw [specRun]; exact specLast, lastPair⟩

/-- A step that only gets a handle has no counterpart. -/
theorem intern_bind {next : Nat → StateT (InternPool α) (Except ε) β'}
    {spec : Except ε γ'}
    (rest : ∀ later handle, pool.Extends later → later.Holds handle value →
      Follows later (next handle) spec nextRelated) :
    Follows pool (interning value >>= next) spec nextRelated := by
  intro returned last run
  obtain ⟨growsMore, found⟩ := rest _ _ (extends_intern pool value)
    (holds_intern pool value) returned last run
  exact ⟨(extends_intern pool value).trans growsMore, found⟩

omit [DecidableEq α] in
/-- A step that does not look at the pool. -/
theorem lift {step : Except ε β}
    (both : ∀ result, step = .ok result → ∃ other, spec = .ok other ∧
      related pool result other) :
    Follows pool (StateT.lift step) spec related := by
  intro returned later run
  change (step >>= fun result => Except.ok (result, pool)) = _ at run
  cases stepRun : step with
  | error fault =>
      rw [stepRun] at run
      exact nomatch run
  | ok result =>
      rw [stepRun] at run
      cases run
      exact ⟨Extends.refl pool, both _ stepRun⟩

omit [DecidableEq α] in
/-- The same step on both sides. -/
theorem lift_same (step : Except ε β) :
    Follows pool (StateT.lift step) step fun _ result other => result = other :=
  lift fun same run => ⟨same, run, rfl⟩

omit [DecidableEq α] in
/-- A step that does not look at the pool, in front of the rest. -/
theorem lift_bind {step : Except ε β}
    (rest : ∀ result, step = .ok result → ∃ other, spec = .ok other ∧
      Follows pool (next result) (specNext other) nextRelated) :
    Follows pool (StateT.lift step >>= next) (spec >>= specNext) nextRelated := by
  intro returned last run
  cases stepRun : step with
  | error fault =>
      rw [stepRun] at run
      exact nomatch run
  | ok result =>
      rw [stepRun] at run
      obtain ⟨other, specRun, follows⟩ := rest result stepRun
      rw [specRun]
      exact follows returned last run

omit [DecidableEq α] in
/-- The same step in front of both. -/
theorem lift_bind_same {specNext : β → Except ε γ'} {step : Except ε β}
    (rest : ∀ result, Follows pool (next result) (specNext result) nextRelated) :
    Follows pool (StateT.lift step >>= next) (step >>= specNext) nextRelated :=
  lift_bind fun result run => ⟨result, run, rest result⟩

omit [DecidableEq α] in
/-- A step that may only stop the program has no counterpart. -/
theorem lift_silent {spec : Except ε γ'} {step : Except ε β}
    (rest : ∀ result, step = .ok result → Follows pool (next result) spec nextRelated) :
    Follows pool (StateT.lift step >>= next) spec nextRelated := by
  change Follows pool (StateT.lift step >>= next)
    ((.ok () : Except ε Unit) >>= fun _ => spec) nextRelated
  apply lift_bind
  intro result run
  exact ⟨(), rfl, rest result run⟩

omit [DecidableEq α] in
/-- A program that stops follows any other. -/
theorem stop (fault : ε) :
    Follows pool (StateT.lift (.error fault) : StateT (InternPool α) (Except ε) β) spec
      related :=
  lift fun _ run => nomatch run

omit [DecidableEq α] in
theorem mono {more : InternPool α → β → γ → Prop}
    (follows : Follows pool call spec related)
    (grows : ∀ later result other, related later result other → more later result other) :
    Follows pool call spec more := by
  intro result later run
  obtain ⟨extended, other, specRun, pair⟩ := follows result later run
  exact ⟨extended, other, specRun, grows _ _ _ pair⟩

omit [DecidableEq α] in
/-- A step that only adds to the pool has no counterpart. -/
theorem silent_bind {spec : Except ε γ'}
    (first : Follows pool call (.ok () : Except ε Unit) fun _ _ _ => True)
    (rest : ∀ later result, pool.Extends later →
      Follows later (next result) spec nextRelated) :
    Follows pool (call >>= next) spec nextRelated := by
  change Follows pool (call >>= next) ((.ok () : Except ε Unit) >>= fun _ => spec) nextRelated
  apply bind first
  intro later result _ grows _
  exact rest later result grows

omit [DecidableEq α] in
/-- A loop follows when its body does. -/
theorem foldlM {δ : Type} {body : β → δ → StateT (InternPool α) (Except ε) β}
    {specBody : γ → δ → Except ε γ}
    (bodies : ∀ later item result other, related later result other →
      Follows later (body result item) (specBody other item) related)
    (items : List δ) {result : β} {other : γ} (initial : related pool result other) :
    Follows pool (items.foldlM body result) (items.foldlM specBody other) related := by
  induction items generalizing pool result other with
  | nil => exact pure initial
  | cons item rest inductionHypothesis =>
      rw [List.foldlM_cons, List.foldlM_cons]
      apply bind (bodies pool item result other initial)
      intro later result other _ kept
      exact inductionHypothesis kept

end Follows

end Programs

end InternPool
