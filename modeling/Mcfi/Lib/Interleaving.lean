import Mathlib.Tactic.Common

/-!
# One writer and many readers

A writer takes a shared state through a sequence of states, one at a time, while
any number of readers take steps that look at the shared state and change only
what is their own.  What a reader knows is preserved along an interleaving when
its own steps and the progress of the writer preserve it.
-/

/--
The configurations of all interleavings: how far the writer is, and the local
state of each reader.
-/
inductive Interleaved {Shared Reader Local : Type} (memory : Nat → Shared)
    (length : Nat) (step : Reader → Shared → Local → Local)
    (initial : Reader → Local) : Nat → (Reader → Local) → Prop where
  | start : Interleaved memory length step initial 0 initial
  | write
      {done : Nat} {locals : Reader → Local}
      (reached : Interleaved memory length step initial done locals)
      (more : done < length) :
      Interleaved memory length step initial (done + 1) locals
  | read
      {done : Nat} {locals next : Reader → Local}
      (reached : Interleaved memory length step initial done locals)
      (reader : Reader)
      (own : next reader = step reader (memory done) (locals reader))
      (others : ∀ other, other ≠ reader → next other = locals other) :
      Interleaved memory length step initial done next

namespace Interleaved

variable {Shared Reader Local : Type} {memory : Nat → Shared} {length : Nat}
  {step : Reader → Shared → Local → Local} {initial : Reader → Local}
  {done : Nat} {locals : Reader → Local}

/-- The writer never takes more steps than it has. -/
theorem done_le
    (reached : Interleaved memory length step initial done locals) :
    done ≤ length := by
  induction reached with
  | start => exact Nat.zero_le length
  | write _ more _ => exact more
  | read _ _ _ _ inductionHypothesis => exact inductionHypothesis

/-- What its own steps and the writer preserve, a reader knows at every point. -/
theorem invariant
    {motive : Nat → Reader → Local → Prop}
    (reached : Interleaved memory length step initial done locals)
    (initially : ∀ reader, motive 0 reader (initial reader))
    (stable : ∀ {done reader known}, done < length →
      motive done reader known → motive (done + 1) reader known)
    (steps : ∀ {done reader known}, done ≤ length →
      motive done reader known →
        motive done reader (step reader (memory done) known)) :
    ∀ reader, motive done reader (locals reader) := by
  induction reached with
  | start => exact initially
  | write _ more inductionHypothesis =>
      exact fun reader => stable more (inductionHypothesis reader)
  | read reached reader own others inductionHypothesis =>
      intro other
      by_cases same : other = reader
      · rw [same, own]
        exact steps reached.done_le (inductionHypothesis reader)
      · rw [others other same]
        exact inductionHypothesis other

end Interleaved
