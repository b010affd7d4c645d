import Mcfi.EntryLocks

namespace Mcfi

open X86

/-!
# The calls of the runtime are serial

The C functions of the runtime read and write its data without further locks.  In every
interleaving of the threads the lock makes their calls serial: each call finds the data as
the last one has left it and works on it alone, until it returns.
-/

section Sections

variable {code : CCode} {layout : EntryLayout} {before after system now : EntrySystem}
  {index : Nat} {func : RuntimeFunction}

/-- A thread has got from the call of a C function to where it is now. -/
def WorksOn (code : CCode) (layout : EntryLayout) (func : RuntimeFunction)
    (first last : Option (EntryPlace × Machine)) : Prop :=
  ∃ entered called m, first = some (.running func entered called, called) ∧
    last = some (.running func entered called, m) ∧ code.Executes layout func called m

/-- It has executed the function up to its return. -/
def Completes (code : CCode) (layout : EntryLayout) (func : RuntimeFunction)
    (first last : Option (EntryPlace × Machine)) : Prop :=
  ∃ entered called m, first = some (.running func entered called, called) ∧
    last = some (.running func entered called, m) ∧ code.Executes layout func called m ∧
    code.returns func called m

/-- The data of the runtime that a thread sees. -/
def EntryLayout.seen (layout : EntryLayout) (view : Option (EntryPlace × Machine)) :
    {query // layout.data query} → UInt8 :=
  match view with
  | some (_, m) => layout.shown m.mem
  | none => fun _ => 0

theorem runs_of_thread {thread : EntryThread} (isThread : system.threads index = some thread) :
    system.runs index = thread.place.function := by
  rw [EntrySystem.runs, isThread]
  rfl

theorem runs_put {m : Machine} {place : EntryPlace} :
    (system.put index m place).runs index = place.function := by
  have isThread : (system.put index m place).threads index = some ⟨m.core, place⟩ := by
    rw [threads_put, if_pos rfl]
  exact runs_of_thread isThread

theorem runs_congr (same : after.threads index = before.threads index) :
    after.runs index = before.runs index := by
  rw [EntrySystem.runs, EntrySystem.runs, same]

theorem view_of_thread {thread : EntryThread}
    (isThread : system.threads index = some thread) :
    system.view index = some (thread.place, system.machine thread) := by
  rw [EntrySystem.view, isThread]
  rfl

theorem view_put {m : Machine} {place : EntryPlace} :
    (system.put index m place).view index = some (place, m) := by
  have isThread : (system.put index m place).threads index = some ⟨m.core, place⟩ := by
    rw [threads_put, if_pos rfl]
  exact view_of_thread isThread

theorem runs_of_view {place : EntryPlace} {m : Machine}
    (isView : system.view index = some (place, m)) :
    system.runs index = place.function := by
  cases isThread : system.threads index with
  | none =>
      rw [EntrySystem.view, isThread] at isView
      cases isView
  | some thread =>
      rw [view_of_thread isThread] at isView
      rw [runs_of_thread isThread, (Prod.mk.inj (Option.some.inj isView)).1]

/-- A thread that executes a function holds the lock. -/
theorem holder_of_runs (isRunning : system.runs index = some func) :
    system.Holder index := by
  cases isThread : system.threads index with
  | none =>
      rw [EntrySystem.runs, isThread] at isRunning
      cases isRunning
  | some thread =>
      rw [runs_of_thread isThread] at isRunning
      refine ⟨thread, isThread, ?_⟩
      cases isPlace : thread.place with
      | running func entered called => trivial
      | _ =>
          rw [isPlace] at isRunning
          cases isRunning

/-- What a step does to the function that its thread runs. -/
inductive RunChange (code : CCode) (layout : EntryLayout) (before : EntrySystem) (index : Nat)
    (after : EntrySystem) : Prop where
  | outside (was : before.runs index = none) (still : after.runs index = none)
      (data : layout.shown after.mem = layout.shown before.mem)
  | called {func : RuntimeFunction} {entered called : Machine}
      (was : before.runs index = none)
      (view : after.view index = some (.running func entered called, called))
      (data : layout.shown after.mem = layout.shown before.mem)
  | stepped {func : RuntimeFunction} {entered called m next : Machine}
      (was : before.view index = some (.running func entered called, m))
      (view : after.view index = some (.running func entered called, next))
      (step : code.step func m next)
  | returned {func : RuntimeFunction} {entered called m : Machine}
      (was : before.view index = some (.running func entered called, m))
      (left : after.runs index = none) (returns : code.returns func called m)
      (data : layout.shown after.mem = layout.shown before.mem)

/-- What a thread changes outside of C functions is none of the runtime's data. -/
theorem shown_of_untouched {tcb : Nat} {mem changed : ByteMem} (block : layout.Block tcb)
    (untouched : Untouched layout tcb mem changed) :
    layout.shown changed = layout.shown mem := by
  funext ⟨query, isData⟩
  refine untouched query (layout.outside query isData) ?_ ?_ ?_
  · rintro rfl
    exact layout.notLocked isData
  · exact fun inside => block.data query (.inl inside) isData
  · exact fun inside => block.data query (.inr inside) isData

/-- A step outside of C functions. -/
private theorem change_outside (invariant : EntryInvariant layout before)
    {thread : EntryThread} (isThread : before.threads index = some thread)
    (was : thread.place.function = none) {m : Machine} {place : EntryPlace}
    (still : place.function = none) (untouched : Untouched layout thread.tcb before.mem m.mem) :
    RunChange code layout before index (before.put index m place) :=
  .outside ((runs_of_thread isThread).trans was) (runs_put.trans still)
    (shown_of_untouched (invariant.safe index thread isThread).block untouched)

theorem EntryStep.change (invariant : EntryInvariant layout before)
    (step : EntryStep code layout before index after) :
    RunChange code layout before index after := by
  cases step with
  | start unused block apart self flag =>
      refine .outside ?_ (runs_put.trans rfl) rfl
      rw [EntrySystem.runs, unused]
      rfl
  | exit isThread place =>
      refine .outside ?_ ?_ rfl
      · rw [runs_of_thread isThread]
        rcases place with place | ⟨entered, place⟩ <;> rw [place] <;> rfl
      · have gone : Function.update before.threads index none index = none :=
          Function.update_self ..
        change Option.bind (Function.update before.threads index none index) _ = none
        rw [gone]
        rfl
  | inside isThread place base writes =>
      exact change_outside invariant isThread (congrArg EntryPlace.function place) rfl
        (untouched_inside writes)
  | escape isThread place escape =>
      exact change_outside invariant isThread (congrArg EntryPlace.function place) rfl
        (untouched_refl _ _)
  | enter isThread place fetched =>
      rename_i thread escape entered pc instr
      refine change_outside invariant isThread (congrArg EntryPlace.function place) ?_
        (untouched_exec (enter_within escape instr (List.mem_of_getElem? fetched))
          (invariant.safe index thread isThread).block.high)
      unfold Escape.afterEnter
      split
      next => rfl
      next => cases escape <;> rfl
  | lockSet isThread place =>
      exact change_outside invariant isThread (congrArg EntryPlace.function place) rfl
        (untouched_refl _ _)
  | lockExchange isThread place =>
      exact change_outside invariant isThread (congrArg EntryPlace.function place) rfl
        (untouched_exchange _)
  | lockTest isThread place =>
      exact change_outside invariant isThread (congrArg EntryPlace.function place) rfl
        (untouched_refl _ _)
  | lockBranch isThread place =>
      refine change_outside invariant isThread (congrArg EntryPlace.function place) ?_
        (untouched_refl _ _)
      split <;> rfl
  | call isThread place =>
      rename_i thread func entered returnAddress
      exact .called ((runs_of_thread isThread).trans (congrArg EntryPlace.function place)) view_put
        (shown_of_untouched (invariant.safe index thread isThread).block
          (untouched_callTo invariant isThread place returnAddress))
  | function isThread place stepped writes =>
      refine .stepped ?_ view_put stepped
      rw [view_of_thread isThread, place]
  | functionReturns isThread place returned =>
      rename_i thread func entered called
      have was : before.view index =
          some (.running func entered called, before.machine thread) := by
        rw [view_of_thread isThread, place]
      exact .returned was (runs_put.trans rfl) returned rfl
  | unlockSet isThread place =>
      exact change_outside invariant isThread (congrArg EntryPlace.function place) rfl
        (untouched_refl _ _)
  | unlockExchange isThread place =>
      exact change_outside invariant isThread (congrArg EntryPlace.function place) rfl
        (untouched_exchange _)
  | kernel isThread place base regs writes =>
      exact change_outside invariant isThread (congrArg EntryPlace.function place) rfl
        fun query high _ _ _ => writes query high
  | leave isThread place fetched =>
      rename_i thread escape entered pc instr
      refine change_outside invariant isThread (congrArg EntryPlace.function place) ?_
        (untouched_exec (leave_within escape instr (List.mem_of_getElem? fetched))
          (invariant.safe index thread isThread).block.high)
      unfold Escape.afterLeave
      split
      next => rfl
      next => cases escape <;> rfl
  | resume isThread place =>
      exact change_outside invariant isThread (congrArg EntryPlace.function place) rfl
        (untouched_refl _ _)

/-- A step outside of C functions, or to and from one, leaves the data as it is. -/
private theorem shown_of_change (change : RunChange code layout before index after)
    (notInside : before.runs index = none ∨ after.runs index = none) :
    layout.shown after.mem = layout.shown before.mem := by
  cases change with
  | outside was still data => exact data
  | called was view data => exact data
  | stepped was view step =>
      rcases notInside with isNone | isNone
      · exact absurd ((runs_of_view was).symm.trans isNone) (by rintro ⟨⟩)
      · exact absurd ((runs_of_view view).symm.trans isNone) (by rintro ⟨⟩)
  | returned was left returns data => exact data

/-- What a thread sees of the steps of another one. -/
private theorem undisturbed (effect : StepEffect layout before index after) {other : Nat}
    (different : other ≠ index) {place : EntryPlace} {m : Machine} (isView : before.view other = some (place, m))
    (data : layout.shown after.mem = layout.shown before.mem) :
    ∃ next, after.view other = some (place, next) ∧ Undisturbed layout m next := by
  cases isThread : before.threads other with
  | none =>
      rw [EntrySystem.view, isThread] at isView
      cases isView
  | some thread =>
      rw [view_of_thread isThread] at isView
      obtain ⟨rfl, rfl⟩ := Prod.mk.inj (Option.some.inj isView)
      refine ⟨after.machine thread, view_of_thread ?_, rfl, ?_⟩
      · rw [effect.others other different]
        exact isThread
      · intro query seen
        rcases seen with isData | inBlock
        · exact congrFun data ⟨query, isData⟩
        · exact effect.blocks other thread different isThread query inBlock

/-- The lock keeps the executions of C functions apart. -/
theorem entrySections_guards (code : CCode) (layout : EntryLayout) :
    (entrySections code layout).Guards (EntryInvariant layout) (WorksOn code layout)
      (Completes code layout) layout.seen where
  preserved := fun before index after invariant step =>
    (step.effect invariant).preserved invariant
  shared := by
    intro system index func _ isRunning
    change system.runs index = some func at isRunning
    cases isThread : system.threads index with
    | none =>
        rw [EntrySystem.runs, isThread] at isRunning
        cases isRunning
    | some thread =>
        change layout.seen (system.view index) = layout.shown system.mem
        rw [view_of_thread isThread]
        rfl
  exclusive := fun system first second _ _ invariant isFirst isSecond =>
    invariant.one first second (holder_of_runs isFirst) (holder_of_runs isSecond)
  others := fun before index after invariant step other different =>
    runs_congr ((step.effect invariant).others other different)
  outside := fun _ _ _ invariant step notInside =>
    shown_of_change (step.change invariant) notInside
  begins := by
    intro before index after func invariant step was entered
    change before.runs index = none at was
    change after.runs index = some func at entered
    change WorksOn code layout func (after.view index) (after.view index)
    cases step.change invariant with
    | outside _ still _ => exact absurd (still.symm.trans entered) (by rintro ⟨⟩)
    | @called same entry called _ view _ =>
        obtain rfl : same = func :=
          Option.some.inj ((runs_of_view view).symm.trans entered)
        exact ⟨entry, called, called, view, view, .refl⟩
    | stepped isView _ _ => exact absurd (was.symm.trans (runs_of_view isView)) (by rintro ⟨⟩)
    | returned _ left _ _ => exact absurd (left.symm.trans entered) (by rintro ⟨⟩)
  keepsCall := by
    intro before index after func other invariant step was now
    change before.runs index = some func at was
    change after.runs index = some other at now
    cases step.change invariant with
    | outside none _ _ => exact absurd (none.symm.trans was) (by rintro ⟨⟩)
    | called none _ _ => exact absurd (none.symm.trans was) (by rintro ⟨⟩)
    | stepped isView view _ =>
        exact Option.some.inj ((now.symm.trans (runs_of_view view)).trans
          ((runs_of_view isView).symm.trans was))
    | returned _ left _ _ => exact absurd (left.symm.trans now) (by rintro ⟨⟩)
  goesOn := by
    intro before index after func first invariant step was now worked
    change before.runs index = some func at was
    change after.runs index = some func at now
    obtain ⟨entered, called, m, isFirst, isLast, executed⟩ := worked
    change before.view index = _ at isLast
    change WorksOn code layout func first (after.view index)
    cases step.change invariant with
    | outside none _ _ => exact absurd (none.symm.trans was) (by rintro ⟨⟩)
    | called none _ _ => exact absurd (none.symm.trans was) (by rintro ⟨⟩)
    | stepped isView view stepped =>
        have same := isLast.symm.trans isView
        simp only [Option.some.injEq, Prod.mk.injEq, EntryPlace.running.injEq] at same
        obtain ⟨⟨rfl, rfl, rfl⟩, rfl⟩ := same
        exact ⟨entered, called, _, isFirst, view, executed.tail (.inl stepped)⟩
    | returned _ left _ _ => exact absurd (left.symm.trans now) (by rintro ⟨⟩)
  ends := by
    intro before index after func first invariant step was now worked
    change before.runs index = some func at was
    change after.runs index = none at now
    obtain ⟨entered, called, m, isFirst, isLast, executed⟩ := worked
    change before.view index = _ at isLast
    cases step.change invariant with
    | outside none _ _ => exact absurd (none.symm.trans was) (by rintro ⟨⟩)
    | called none _ _ => exact absurd (none.symm.trans was) (by rintro ⟨⟩)
    | stepped _ view _ => exact absurd (now.symm.trans (runs_of_view view)) (by rintro ⟨⟩)
    | returned isView _ returns _ =>
        have same := isLast.symm.trans isView
        simp only [Option.some.injEq, Prod.mk.injEq, EntryPlace.running.injEq] at same
        obtain ⟨⟨rfl, rfl, rfl⟩, rfl⟩ := same
        exact ⟨entered, called, m, isFirst, isLast, executed, returns⟩
  disturbed := by
    intro before index after other func first invariant step different isRunning worked
    change before.runs other = some func at isRunning
    obtain ⟨entered, called, m, isFirst, isLast, executed⟩ := worked
    change before.view other = _ at isLast
    change WorksOn code layout func first (after.view other)
    have idle : before.runs index = none := by
      cases runs : before.runs index with
      | none => rfl
      | some busy =>
          exact absurd (invariant.one other index (holder_of_runs isRunning)
            (holder_of_runs runs)) different
    have data := shown_of_change (step.change invariant) (.inl idle)
    obtain ⟨next, isView, meanwhile⟩ :=
      undisturbed (step.effect invariant) different isLast data
    exact ⟨entered, called, next, isFirst, isView, executed.tail (.inr meanwhile)⟩

end Sections

section Serial

variable {code : CCode} {layout : EntryLayout} {begin now : EntrySystem}
  {log : List (Nat × RuntimeFunction)}

/-- When the runtime starts, nobody holds the lock. -/
theorem EntrySystem.Booted.invariant (booted : begin.Booted layout) :
    EntryInvariant layout begin where
  safe := fun index thread isThread => by
    rw [booted.threads] at isThread
    cases isThread
  apart := fun first _ _ _ _ isOne _ => by
    rw [booted.threads] at isOne
    cases isOne
  byte := .inl booted.free
  held := by
    rw [booted.free]
    refine ⟨fun isOne => absurd isOne (by decide), ?_⟩
    rintro ⟨index, thread, isThread, _⟩
    rw [booted.threads] at isThread
    cases isThread
  one := by
    rintro first _ ⟨thread, isThread, _⟩
    rw [booted.threads] at isThread
    cases isThread

/--
The lock byte is set exactly while a thread holds the lock, at most one does, and the calls
of C functions are serial: in the order of their returns, each has executed its function
alone on the data that the last one has left.
-/
theorem runtime_calls_serial (booted : begin.Booted layout)
    (run : (entrySections code layout).Run begin log now) :
    (now.mem layout.locked = 1 ↔ ∃ index, now.Holder index) ∧
    (∀ first second, now.Holder first → now.Holder second → first = second) ∧
    (∀ index func, now.runs index = some func → now.Holder index) ∧
    ∃ sections data, (entrySections code layout).History (WorksOn code layout)
      (Completes code layout) layout.seen (layout.shown begin.mem) log now sections data := by
  have guards := entrySections_guards code layout
  have invariant := guards.reached booted.invariant run
  refine ⟨invariant.held, invariant.one, fun _ _ => holder_of_runs, ?_⟩
  refine guards.serial booted.invariant (fun index => ?_) run
  change begin.runs index = none
  rw [EntrySystem.runs, booted.threads]
  rfl

end Serial

namespace EntryExample

/-- The lock and one byte of data, behind the blocks. -/
def layout : EntryLayout where
  locked := 8589934592
  data := fun query => query = 8589934600
  outside := by
    rintro query rfl
    decide
  notLocked := by decide
  lockedOutside := by decide

/-- C functions that only return, as `rock_clone` does. -/
def code : CCode where
  step := fun _ m after => after = m.setReg .rsp (m.regs .rsp + 8)
  returns := fun _ called m => m.regs .rsp = called.regs .rsp + 8 ∧
    ∀ reg ∈ calleeSaved, m.regs reg = called.regs reg
  segmentBase := by
    rintro _ m _ rfl
    rfl
  stack := fun _ _ _ returned => returned.1
  calleeSaved := fun _ _ _ returned => returned.2

/-- Zeroed memory with the address of one block. -/
def booted : EntrySystem where
  mem := ByteMem.store (fun _ => 0) 4294967304 8 4294967296
  threads := fun _ => none

/-- A thread of the block. -/
def core : Core where
  regs := fun _ => 0
  xmm := fun _ => 0
  mxcsr := 0
  fcw := 0
  segmentBase := fun _ => 4294967296
  zf := false

theorem block_layout : layout.Block 4294967296 where
  low := by decide
  high := by decide
  locked := .inr (by decide)
  data := by
    rintro query inside rfl
    unfold InHeader OnStack at inside
    omega

/-- The one thread. -/
theorem threads_zero {system : EntrySystem} {m : Machine} {place : EntryPlace} :
    (system.put 0 m place).threads 0 = some ⟨m.core, place⟩ := by
  rw [threads_put, if_pos rfl]

theorem notStack {reg : Reg} (listed : reg ∈ calleeSaved) : reg ≠ .rsp := by
  rintro rfl
  revert listed
  decide

theorem booted_layout : booted.Booted layout where
  free := rfl
  threads := fun _ => rfl

/-- The thread starts, calls `rock_clone`, and is about to go on in the sandbox. -/
theorem clone_called : ∃ system m entered,
    (entrySections code layout).Run booted [(0, .rockClone)]
      (EntrySystem.put system 0 m (.resuming .rockClone entered)) := by
  have run := @SectionSystem.Run.refl _ _ _ _ _ (entrySections code layout) booted
  have run := run.step (@EntryStep.start code layout booted 0 core rfl block_layout
    (fun _ _ isNone => by cases isNone) rfl rfl)
  have run := run.step (.escape threads_zero rfl (.function .rockClone))
  have run := run.step (.enter threads_zero rfl rfl)
  have run := run.step (.enter threads_zero rfl rfl)
  have run := run.step (.enter threads_zero rfl rfl)
  have run := run.step (.enter threads_zero rfl rfl)
  have run := run.step (.enter threads_zero rfl rfl)
  have run := run.step (.enter threads_zero rfl rfl)
  have run := run.step (.enter threads_zero rfl rfl)
  have run := run.step (.lockSet threads_zero rfl)
  have run := run.step (.lockExchange threads_zero rfl)
  have run := run.step (.lockTest threads_zero rfl)
  have run := run.step (.lockBranch threads_zero rfl)
  have run := run.step (@EntryStep.call code layout _ 0 _ _ _ 0 threads_zero rfl)
  have run := run.step (.function threads_zero rfl rfl (by intro query _; rfl))
  have run := run.step (.functionReturns threads_zero rfl ⟨rfl, fun reg listed =>
    if_neg (notStack listed)⟩)
  have run := run.step (.unlockSet threads_zero rfl)
  have run := run.step (.unlockExchange threads_zero rfl)
  have run := run.step (.leave threads_zero rfl rfl)
  have run := run.step (.leave threads_zero rfl rfl)
  exact ⟨_, _, _, run⟩

theorem runtime_calls_serial_clone : ∃ now sections data,
    (entrySections code layout).History (WorksOn code layout) (Completes code layout)
      layout.seen (layout.shown booted.mem) [(0, .rockClone)] now sections data := by
  obtain ⟨system, m, entered, run⟩ := clone_called
  exact ⟨_, (runtime_calls_serial booted_layout run).2.2.2⟩

end EntryExample

end Mcfi
