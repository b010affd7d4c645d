import Mathlib.Tactic.Common

/-!
# Runs that keep a history

A run of a transition system that records facts on its way.  What holds when it
is recorded and is kept by every step holds at the end for every recorded fact;
what a step can only bring about by recording it is recorded whenever it holds.
-/

/-- The states that calls reach from a start, with the facts recorded so far. -/
inductive HistoryRun {State Call Fact : Type}
    (step : State → Call → State → Prop)
    (records : State → Call → State → Fact → Prop)
    (start : State) : (Fact → Prop) → State → Prop where
  | start : HistoryRun step records start (fun _ => False) start
  | call
      {history : Fact → Prop} {before after : State} {call : Call}
      (run : HistoryRun step records start history before)
      (stepped : step before call after) :
      HistoryRun step records start
        (fun fact => history fact ∨ records before call after fact) after

namespace HistoryRun

variable {State Call Fact : Type} {step : State → Call → State → Prop}
  {records : State → Call → State → Fact → Prop} {start state : State}
  {history : Fact → Prop}

/-- A state predicate that every step preserves holds along a run. -/
theorem invariant
    {motive : State → Prop} (run : HistoryRun step records start history state)
    (initial : motive start)
    (preserved : ∀ {before call after}, motive before →
      step before call after → motive after) :
    motive state := by
  induction run with
  | start => exact initial
  | call _ stepped inductionHypothesis =>
      exact preserved inductionHypothesis stepped

/-- What holds when it is recorded, and from then on, holds of the history. -/
theorem recorded_holds
    {motive : State → Prop} (holds : State → Fact → Prop)
    (run : HistoryRun step records start history state)
    (initial : motive start)
    (preserved : ∀ {before call after}, motive before →
      step before call after → motive after)
    (whenRecorded : ∀ {before call after fact}, motive before →
      step before call after → records before call after fact →
        holds after fact)
    (kept : ∀ {before call after fact}, motive before →
      step before call after → holds before fact → holds after fact) :
    ∀ fact, history fact → holds state fact := by
  induction run with
  | start => exact fun _ recorded => recorded.elim
  | call run stepped inductionHypothesis =>
      have invariant := run.invariant initial preserved
      rintro fact (old | new)
      · exact kept invariant stepped (inductionHypothesis fact old)
      · exact whenRecorded invariant stepped new

/-- What only a recording step brings about is in the history. -/
theorem holds_recorded
    {motive : State → Prop} (holds : State → Fact → Prop)
    (run : HistoryRun step records start history state)
    (initial : motive start)
    (preserved : ∀ {before call after}, motive before →
      step before call after → motive after)
    (noneAtStart : ∀ fact, ¬ holds start fact)
    (explained : ∀ {before call after fact}, motive before →
      step before call after → holds after fact →
        holds before fact ∨ records before call after fact) :
    ∀ fact, holds state fact → history fact := by
  induction run with
  | start => exact fun fact held => noneAtStart fact held
  | call run stepped inductionHypothesis =>
      intro fact held
      exact (explained (run.invariant initial preserved) stepped held).imp_left
        (inductionHypothesis fact)

end HistoryRun
