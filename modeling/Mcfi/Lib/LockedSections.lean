import Mathlib.Logic.Relation
import Mathlib.Tactic.Common

/-!
# Sections that run one at a time

Threads take steps in any order.  Some of the time a thread is inside a section,
where it executes a call, and no two threads are inside sections at once.  When the
threads outside change nothing of the shared data, every run is serial: the sections
that have ended follow one another, each takes the data from where the last one left
it, and what it has done is an execution of its call by its thread alone.
-/

/-- A system of threads that enter and leave sections. -/
structure SectionSystem (Config Thread View Data Call : Type) where
  step : Config → Thread → Config → Prop
  inside : Config → Thread → Option Call
  view : Config → Thread → View
  data : Config → Data

/-- A section that has ended: what its thread saw when it began and when it ended. -/
structure Section (Thread View Call : Type) where
  thread : Thread
  call : Call
  first : View
  last : View

/--
Sections one after another, from data to data: each begins where the last one ended,
and completes its call.
-/
inductive Serial {Thread View Data Call : Type} (completes : Call → View → View → Prop)
    (seen : View → Data) : Data → List (Section Thread View Call) → Data → Prop where
  | nil (data : Data) : Serial completes seen data [] data
  | snoc {start data : Data} {sections : List (Section Thread View Call)}
      {last : Section Thread View Call} (earlier : Serial completes seen start sections data)
      (begins : seen last.first = data)
      (completed : completes last.call last.first last.last) :
      Serial completes seen start (sections ++ [last]) (seen last.last)

namespace SectionSystem

variable {Config Thread View Data Call : Type}
  (system : SectionSystem Config Thread View Data Call)

/-- The section that a step ends, if it ends one. -/
def ended (before : Config) (thread : Thread) (after : Config) : List (Thread × Call) :=
  match system.inside before thread, system.inside after thread with
  | some call, none => [(thread, call)]
  | _, _ => []

/-- The runs of a system, with the sections that have ended. -/
inductive Run (start : Config) : List (Thread × Call) → Config → Prop where
  | refl : Run start [] start
  | step {log : List (Thread × Call)} {before after : Config} {thread : Thread}
      (run : Run start log before) (stepped : system.step before thread after) :
      Run start (log ++ system.ended before thread after) after

/--
How a system keeps its sections apart.  `works` relates what a thread saw when it began a
call to what it sees now, `completes` to what it sees at its end, and `seen` is the part of
it that is shared data.
-/
structure Guards (invariant : Config → Prop) (works completes : Call → View → View → Prop)
    (seen : View → Data) : Prop where
  preserved : ∀ before thread after, invariant before →
    system.step before thread after → invariant after
  shared : ∀ config thread call, invariant config →
    system.inside config thread = some call →
    seen (system.view config thread) = system.data config
  exclusive : ∀ config first second call other, invariant config →
    system.inside config first = some call → system.inside config second = some other →
    first = second
  others : ∀ before thread after, invariant before → system.step before thread after →
    ∀ other, other ≠ thread → system.inside after other = system.inside before other
  outside : ∀ before thread after, invariant before → system.step before thread after →
    (system.inside before thread = none ∨ system.inside after thread = none) →
    system.data after = system.data before
  begins : ∀ before thread after call, invariant before →
    system.step before thread after → system.inside before thread = none →
    system.inside after thread = some call →
    works call (system.view after thread) (system.view after thread)
  keepsCall : ∀ before thread after call other, invariant before →
    system.step before thread after → system.inside before thread = some call →
    system.inside after thread = some other → other = call
  goesOn : ∀ before thread after call first, invariant before →
    system.step before thread after → system.inside before thread = some call →
    system.inside after thread = some call →
    works call first (system.view before thread) →
    works call first (system.view after thread)
  ends : ∀ before thread after call first, invariant before →
    system.step before thread after → system.inside before thread = some call →
    system.inside after thread = none → works call first (system.view before thread) →
    completes call first (system.view before thread)
  disturbed : ∀ before thread after other call first, invariant before →
    system.step before thread after → other ≠ thread →
    system.inside before other = some call →
    works call first (system.view before other) →
    works call first (system.view after other)

/--
A serial history of a configuration: the sections that have ended, and the beginning of the
one that has not.
-/
structure History (works completes : Call → View → View → Prop) (seen : View → Data)
    (start : Data) (log : List (Thread × Call)) (now : Config)
    (sections : List (Section Thread View Call)) (data : Data) : Prop where
  serial : Serial completes seen start sections data
  logged : sections.map (fun ended => (ended.thread, ended.call)) = log
  idle : (∀ thread, system.inside now thread = none) → system.data now = data
  busy : ∀ thread call, system.inside now thread = some call →
    ∃ first, seen first = data ∧ works call first (system.view now thread)

variable {system} {invariant : Config → Prop} {works completes : Call → View → View → Prop}
  {seen : View → Data} {start : Data} {log : List (Thread × Call)}
  {sections : List (Section Thread View Call)} {data : Data}
  {before after : Config} {thread : Thread}

/-- The invariant holds along a run. -/
theorem Guards.reached (guards : system.Guards invariant works completes seen) {begin now : Config}
    (initially : invariant begin) (run : system.Run begin log now) : invariant now := by
  induction run with
  | refl => exact initially
  | step _ stepped inductionHypothesis =>
      exact guards.preserved _ _ _ inductionHypothesis stepped

/-- A step of a thread that stays outside. -/
private theorem History.stays (guards : system.Guards invariant works completes seen)
    (holds : invariant before) (stepped : system.step before thread after)
    (history : system.History works completes seen start log before sections data)
    (was : system.inside before thread = none) (still : system.inside after thread = none) :
    system.History works completes seen start log after sections data where
  serial := history.serial
  logged := history.logged
  idle := by
    intro free
    rw [guards.outside before thread after holds stepped (.inl was)]
    apply history.idle
    intro other
    by_cases same : other = thread
    · rw [same]
      exact was
    · rw [← guards.others before thread after holds stepped other same]
      exact free other
  busy := by
    intro other call inside
    have different : other ≠ thread := by
      rintro rfl
      rw [still] at inside
      cases inside
    rw [guards.others before thread after holds stepped other different] at inside
    obtain ⟨first, begins, worked⟩ := history.busy other call inside
    exact ⟨first, begins, guards.disturbed before thread after other call first holds
      stepped different inside worked⟩

/-- A step of a thread that begins a section: no other thread is inside one. -/
private theorem History.enters (guards : system.Guards invariant works completes seen)
    (holds : invariant before) (stepped : system.step before thread after)
    (history : system.History works completes seen start log before sections data) {call : Call}
    (was : system.inside before thread = none)
    (entered : system.inside after thread = some call) :
    system.History works completes seen start log after sections data where
  serial := history.serial
  logged := history.logged
  idle := by
    intro free
    rw [free thread] at entered
    cases entered
  busy := by
    have holdsAfter := guards.preserved before thread after holds stepped
    have alone : ∀ other, system.inside before other = none := by
      intro other
      by_cases same : other = thread
      · rw [same]
        exact was
      · have kept := guards.others before thread after holds stepped other same
        rw [← kept]
        cases inside : system.inside after other with
        | none => rfl
        | some busyCall =>
            exact absurd (guards.exclusive after other thread busyCall call holdsAfter inside
              entered) same
    intro other otherCall inside
    obtain rfl := guards.exclusive after other thread otherCall call holdsAfter inside entered
    obtain rfl : otherCall = call := Option.some.inj (inside.symm.trans entered)
    refine ⟨system.view after other, ?_, guards.begins before other after otherCall holds
      stepped was entered⟩
    rw [guards.shared after other otherCall holdsAfter inside,
      guards.outside before other after holds stepped (.inl was)]
    exact history.idle alone

/-- A step of a thread inside its section. -/
private theorem History.goesOn (guards : system.Guards invariant works completes seen)
    (holds : invariant before) (stepped : system.step before thread after)
    (history : system.History works completes seen start log before sections data) {call : Call}
    (was : system.inside before thread = some call)
    (still : system.inside after thread = some call) :
    system.History works completes seen start log after sections data where
  serial := history.serial
  logged := history.logged
  idle := by
    intro free
    rw [free thread] at still
    cases still
  busy := by
    intro other otherCall inside
    have holdsAfter := guards.preserved before thread after holds stepped
    obtain rfl := guards.exclusive after other thread otherCall call holdsAfter inside still
    obtain rfl : otherCall = call := Option.some.inj (inside.symm.trans still)
    obtain ⟨first, begins, worked⟩ := history.busy other otherCall was
    exact ⟨first, begins, guards.goesOn before other after otherCall first holds stepped was
      still worked⟩

/-- A step of a thread that ends its section: the section joins the history. -/
private theorem History.leaves (guards : system.Guards invariant works completes seen)
    (holds : invariant before) (stepped : system.step before thread after)
    (history : system.History works completes seen start log before sections data) {call : Call}
    (was : system.inside before thread = some call)
    (left : system.inside after thread = none) :
    ∃ first, system.History works completes seen start (log ++ [(thread, call)]) after
      (sections ++ [⟨thread, call, first, system.view before thread⟩])
      (seen (system.view before thread)) := by
  obtain ⟨first, begins, worked⟩ := history.busy thread call was
  refine ⟨first, ?_, ?_, ?_, ?_⟩
  · exact history.serial.snoc begins (guards.ends before thread after call first holds stepped
      was left worked)
  · rw [List.map_append, history.logged]
    rfl
  · intro _
    rw [guards.outside before thread after holds stepped (.inr left),
      guards.shared before thread call holds was]
  · intro other otherCall inside
    have different : other ≠ thread := by
      rintro rfl
      rw [left] at inside
      cases inside
    rw [guards.others before thread after holds stepped other different] at inside
    exact absurd (guards.exclusive before other thread otherCall call holds inside was)
      different

/-- Every run is serial, in the order in which its sections have ended. -/
theorem Guards.serial (guards : system.Guards invariant works completes seen) {begin now : Config}
    (initially : invariant begin) (free : ∀ thread, system.inside begin thread = none)
    (run : system.Run begin log now) :
    ∃ sections data,
      system.History works completes seen (system.data begin) log now sections data := by
  induction run with
  | refl =>
      refine ⟨[], system.data begin, .nil _, rfl, fun _ => rfl, ?_⟩
      intro thread call inside
      rw [free thread] at inside
      cases inside
  | @step log before after thread run stepped inductionHypothesis =>
      obtain ⟨sections, data, history⟩ := inductionHypothesis
      have holds := guards.reached initially run
      cases was : system.inside before thread with
      | none =>
          have nothing : system.ended before thread after = [] := by
            simp only [ended, was]
          rw [nothing, List.append_nil]
          cases now : system.inside after thread with
          | none => exact ⟨sections, data, history.stays guards holds stepped was now⟩
          | some call =>
              exact ⟨sections, data, history.enters guards holds stepped was now⟩
      | some call =>
          cases now : system.inside after thread with
          | none =>
              have one : system.ended before thread after = [(thread, call)] := by
                simp only [ended, was, now]
              rw [one]
              obtain ⟨first, later⟩ := history.leaves guards holds stepped was now
              exact ⟨_, _, later⟩
          | some other =>
              have nothing : system.ended before thread after = [] := by
                simp only [ended, was, now]
              rw [nothing, List.append_nil]
              obtain rfl := guards.keepsCall before thread after call other holds stepped was
                now
              exact ⟨sections, data, history.goesOn guards holds stepped was now⟩

end SectionSystem
