import Mcfi.TcbLifetime

namespace Mcfi

/-!
# Grace periods

`safe` answers true when every thread has been outside the sandbox since the last
update was complete: it is in the runtime or in the kernel, or its count of
escapes differs from the one that `update_thesc` has recorded.  Both look only at
the blocks that are not marked, so a thread that has called `free_tcb` and still
runs is not looked at.
-/

/-- The check in flight, if there is one, loaded its id after the last update. -/
def Thread.Fresh (updates : Nat) (thread : Thread) : Prop :=
  ∀ loaded, thread.inflight = some loaded → loaded = updates

namespace System

variable (system : System) (thread : Thread)

/--
An older check in flight has kept the count of escapes as it was recorded, or the
count is yet to be recorded.
-/
def Recorded : Prop :=
  thread.Fresh system.updates ∨
    dictFind system.blocks.threadEscapeMap thread.tcb =
        some (system.blocks.memory thread.tcb).sandboxEscape ∨
      ∃ todo, system.updater = .recording todo ∧
        thread.tcb ∈ todo.map TcbNode.self

/-- What `safe` has found out about a thread so far. -/
def Passed : Prop :=
  match system.updater with
  | .scanning todo =>
      thread.tcb ∉ todo.map TcbNode.self → thread.Fresh system.updates
  | .sampled tcb thescs todo =>
      thread.tcb ∉ todo.map TcbNode.self → thread.Fresh system.updates ∨
        thread.tcb = tcb.self ∧
          dictFind system.blocks.threadEscapeMap thread.tcb = some thescs
  | .answered true => thread.Fresh system.updates
  | _ => True

end System

/-- What holds of a thread that has not ended. -/
structure ThreadGrace (system : System) (thread : Thread) : Prop where
  past : ∀ loaded, thread.inflight = some loaded →
    loaded ≤ system.updates ∧ thread.stage = .sandbox
  flag : thread.stage = .sandbox →
    (system.blocks.memory thread.tcb).insyscall = false
  recorded : thread.freed = false → system.Recorded thread
  passed : thread.freed = false → system.Passed thread

namespace ThreadGrace

variable {before after : System} {thread : Thread}

/-- A thread without an older check in flight has nothing to be found out. -/
theorem ofFresh (fresh : thread.Fresh after.updates)
    (inside : ∀ loaded, thread.inflight = some loaded → thread.stage = .sandbox)
    (flag : thread.stage = .sandbox →
      (after.blocks.memory thread.tcb).insyscall = false) :
    ThreadGrace after thread := by
  refine ⟨fun loaded checking => ?_, flag, fun _ => Or.inl fresh, fun _ => ?_⟩
  · exact ⟨(fresh loaded checking).le, inside loaded checking⟩
  · unfold System.Passed
    split
    next => exact fun _ => fresh
    next => exact fun _ => Or.inl fresh
    next => exact fresh
    next => trivial

/-- What a thread depends on in the system. -/
theorem frame (grace : ThreadGrace before thread)
    (sameUpdates : after.updates = before.updates)
    (sameUpdater : after.updater = before.updater)
    (sameFields : after.blocks.memory thread.tcb =
      before.blocks.memory thread.tcb)
    (sameFind : thread.freed = false →
      dictFind after.blocks.threadEscapeMap thread.tcb =
        dictFind before.blocks.threadEscapeMap thread.tcb) :
    ThreadGrace after thread := by
  obtain ⟨past, flag, recorded, passed⟩ := grace
  refine ⟨?_, ?_, fun alive => ?_, fun alive => ?_⟩
  · rw [sameUpdates]
    exact past
  · rw [sameFields]
    exact flag
  · rw [System.Recorded, sameUpdates, sameUpdater, sameFields, sameFind alive]
    exact recorded alive
  · rw [System.Passed, sameUpdates, sameUpdater, sameFind alive]
    exact passed alive

/-- Outside the recording, the count of a thread that is not fresh is recorded. -/
theorem count_recorded (grace : ThreadGrace before thread)
    (alive : thread.freed = false)
    (notRecording : ∀ todo, before.updater ≠ .recording todo) :
    thread.Fresh before.updates ∨
      dictFind before.blocks.threadEscapeMap thread.tcb =
        some (before.blocks.memory thread.tcb).sandboxEscape := by
  rcases grace.recorded alive with fresh | same | ⟨todo, recording, _⟩
  · exact Or.inl fresh
  · exact Or.inr same
  · exact absurd recording (notRecording todo)

/-- An update goes on, while it is not recording. -/
theorem updating {updater : Updater} {holder : Option Nat}
    (grace : ThreadGrace before thread)
    (notRecording : ∀ todo, before.updater ≠ .recording todo)
    (passed : thread.freed = false →
      { before with updater := updater, holder := holder }.Passed thread) :
    ThreadGrace { before with updater := updater, holder := holder } thread :=
  ⟨grace.past, grace.flag, fun alive =>
    (grace.count_recorded alive notRecording).imp_right Or.inl, passed⟩

/-- A thread with an older check in flight is in the sandbox. -/
theorem inside_of_stale (grace : ThreadGrace before thread)
    (stale : ¬ thread.Fresh before.updates) : thread.stage = .sandbox := by
  unfold Thread.Fresh at stale
  push Not at stale
  obtain ⟨loaded, checking, _⟩ := stale
  exact (grace.past loaded checking).2

/-- Outside the sandbox no check is in flight. -/
theorem ready (grace : ThreadGrace before thread)
    (outside : thread.stage ≠ .sandbox) : thread.inflight = none := by
  cases checking : thread.inflight with
  | none => rfl
  | some loaded => exact absurd (grace.past loaded checking).2 outside

end ThreadGrace

/-- What every step preserves, when a `free_tcb` waits for the threads that leave. -/
structure Graceful (system : System) : Prop where
  ended : ∀ index thread, system.threads index = some thread →
    thread.stage = .exited → thread.inflight = none
  grace : ∀ index thread, system.threads index = some thread →
    thread.stage ≠ .exited → ThreadGrace system thread
  waiting : ∀ block ∈ system.pending,
    (system.blocks.memory block.self).insyscall = false

namespace Graceful

variable {before after : System} {index : Nat} {thread changed : Thread}

/-- A thread changes, but no control block. -/
theorem setThread (graceful : Graceful before)
    (ended : changed.stage = .exited → changed.inflight = none)
    (grace : changed.stage ≠ .exited →
      ThreadGrace (before.setThread index changed) changed) :
    Graceful (before.setThread index changed) := by
  refine ⟨fun other otherThread found => ?_, fun other otherThread found => ?_,
    graceful.waiting⟩
  · rcases System.setThread_cases found with ⟨_, rfl⟩ | ⟨_, old⟩
    · exact ended
    · exact graceful.ended other otherThread old
  · rcases System.setThread_cases found with ⟨_, rfl⟩ | ⟨_, old⟩
    · exact grace
    · exact fun notEnded =>
        (graceful.grace other otherThread old notEnded).frame rfl rfl rfl fun _ =>
          rfl

/-- A thread writes its control block, and has no check in flight. -/
theorem setFields (graceful : Graceful before) (owned : Owned before)
    {fields : TcbFields} (running : before.threads index = some thread)
    (notEnded : thread.stage ≠ .exited) (sameTcb : changed.tcb = thread.tcb)
    (ready : changed.inflight = none)
    (flag : changed.stage = .sandbox → fields.insyscall = false) :
    Graceful ((before.setThread index changed).setFields thread.tcb fields) := by
  refine ⟨fun other otherThread found => ?_,
    fun other otherThread found otherNotEnded => ?_, fun block listed => ?_⟩
  · rcases System.setThread_cases found with ⟨_, rfl⟩ | ⟨_, old⟩
    · exact fun _ => ready
    · exact graceful.ended other otherThread old
  · rcases System.setThread_cases found with ⟨_, rfl⟩ | ⟨distinct, old⟩
    · refine .ofFresh ?_ ?_ fun inside => ?_
      · intro loaded checking
        rw [ready] at checking
        cases checking
      · intro loaded checking
        rw [ready] at checking
        cases checking
      · change (Function.update before.blocks.memory thread.tcb fields
          otherThread.tcb).insyscall = false
        rw [sameTcb, Function.update_self]
        exact flag inside
    · refine (graceful.grace other otherThread old otherNotEnded).frame rfl rfl ?_
        fun _ => rfl
      refine Function.update_of_ne (fun same => ?_) _ _
      exact distinct (owned.apart other index otherThread thread old running
        otherNotEnded notEnded same)
  · change (Function.update before.blocks.memory thread.tcb fields
      block.self).insyscall = false
    rw [Function.update_of_ne
      (owned.unstarted block listed index thread running notEnded).symm]
    exact graceful.waiting block listed

/-- A new block is not set, and no thread uses it. -/
theorem allocate (graceful : Graceful before) (owned : Owned before)
    (kept : before.Kept) {user addr : Nat} {blocks : ThreadBlocks}
    (fresh : addr ∉ before.blocks.mapped)
    (returned : allocsetTcb user addr before.blocks = .ok blocks) :
    Graceful { before with
      blocks := blocks
      pending := ⟨addr, user, false⟩ :: before.pending } := by
  obtain ⟨_, rfl⟩ := allocsetTcb_ok returned
  refine ⟨graceful.ended, fun index thread running notEnded => ?_,
    fun block listed => ?_⟩
  · have apart : thread.tcb ≠ addr := by
      rintro rfl
      exact fresh (owned.tcbsMapped kept index thread running notEnded)
    refine (graceful.grace index thread running notEnded).frame rfl rfl
      (Function.update_of_ne apart _ _) fun _ => ?_
    change OrdDict.find (OrdDict.insertNew _ _ _) _ = _
    rw [OrdDict.find_insertNew, if_neg fun same => apart same.1]
    rfl
  · change (Function.update before.blocks.memory addr ⟨0, false⟩
      block.self).insyscall = false
    rcases List.mem_cons.mp listed with rfl | old
    · rw [Function.update_self]
    · have mapped := kept.blocks.mapped block
        (ThreadBlocks.mem_unmarked.mp (owned.waiting block old)).1
      have apart : block.self ≠ addr := fun same => fresh (same ▸ mapped)
      rw [Function.update_of_ne apart]
      exact graceful.waiting block old

/-- What `free_tcb` leaves to the threads whose blocks it has not marked. -/
theorem afterFree {user : Nat} {victim : Option Nat}
    (owned : Owned after)
    (freed : FreedTcb user before.blocks after.blocks victim)
    (grace : ThreadGrace before thread)
    (running : after.threads index = some thread)
    (notEnded : thread.stage ≠ .exited)
    (sameUpdates : after.updates = before.updates)
    (sameUpdater : after.updater = before.updater) :
    ThreadGrace after thread := by
  refine grace.frame sameUpdates sameUpdater (by rw [freed.memoryIs])
    fun alive => freed.lookup thread.tcb fun victimIs => ?_
  obtain ⟨node, listed, here, notMarked, _⟩ :=
    owned.owner index thread running notEnded
  have listedHere := listed
  rw [freed.listIs] at listed
  obtain ⟨old, _, rfl⟩ := List.mem_map.mp listed
  rw [TcbNode.markAt_self] at here
  exact ((old.markAt_remove victim).mp (notMarked.trans alive)).2
    (victimIs.trans (congrArg some here.symm))

/-- Every thread that has not called `free_tcb` has an unmarked block. -/
theorem exists_node (owned : Owned before)
    (running : before.threads index = some thread)
    (notEnded : thread.stage ≠ .exited) (alive : thread.freed = false) :
    ∃ node ∈ before.blocks.tcbList, node.self = thread.tcb ∧
      node.remove = false := by
  obtain ⟨node, listed, here, notMarked, _⟩ :=
    owned.owner index thread running notEnded
  exact ⟨node, listed, here, notMarked.trans alive⟩

/-- The updater goes on, and every thread keeps what holds of it. -/
theorem updating (graceful : Graceful before)
    (sameThreads : after.threads = before.threads)
    (samePending : after.pending = before.pending)
    (sameMemory : after.blocks.memory = before.blocks.memory)
    (grace : ∀ index thread, before.threads index = some thread →
      thread.stage ≠ .exited → ThreadGrace before thread →
        ThreadGrace after thread) : Graceful after := by
  refine ⟨?_, fun index thread running notEnded => ?_, ?_⟩
  · rw [sameThreads]
    exact graceful.ended
  · rw [sameThreads] at running
    exact grace index thread running notEnded
      (graceful.grace index thread running notEnded)
  · rw [samePending, sameMemory]
    exact graceful.waiting

/-- A look at a node that is marked passes over no thread that is left. -/
theorem lookRemoved (owned : Owned before) (kept : before.Kept)
    {tcb : TcbNode} {todo : List TcbNode}
    (inTodo : tcb :: todo = before.updater.todo) (removed : tcb.remove = true)
    (running : before.threads index = some thread)
    (notEnded : thread.stage ≠ .exited) (alive : thread.freed = false) :
    thread.tcb ≠ tcb.self := by
  intro same
  obtain ⟨node, listed, here, notMarked⟩ :=
    exists_node owned running notEnded alive
  have tcbListed := kept.walk tcb (inTodo ▸ List.mem_cons_self)
  have one := kept.blocks.node_unique listed tcbListed (here.trans same)
  rw [one, removed] at notMarked
  cases notMarked

/-- A step that waits for the threads that leave keeps what is known of them. -/
theorem step (graceful : Graceful before) (owned : Owned before)
    (kept : before.Kept) {event : Event} (waits : event.WaitsForExits before)
    (step : Step before event after) : Graceful after := by
  have ownedAfter := owned.step kept waits step
  cases step with
  | load running inside ready =>
      refine graceful.setThread (fun never => ?_) fun _ => ?_
      · rw [inside] at never
        cases never
      · have grace := graceful.grace _ _ running (by rw [inside]; decide)
        refine .ofFresh ?_ (fun _ _ => inside) grace.flag
        exact fun loaded checking => (Option.some.inj checking).symm
  | finish running checking =>
      refine graceful.setThread (fun _ => rfl) fun notEnded => ?_
      have grace := graceful.grace _ _ running notEnded
      exact .ofFresh (fun _ never => nomatch never) (fun _ never => nomatch never)
        grace.flag
  | @enter index thread running inside ready mapped =>
      exact @setFields before index thread { thread with stage := .entered }
        graceful owned _ running (by rw [inside]; decide) rfl ready fun never =>
          nomatch never
  | @count index thread running entered mapped =>
      have notEnded : thread.stage ≠ .exited := by
        rw [entered]
        decide
      have ready := (graceful.grace _ _ running notEnded).ready (by
        rw [entered]
        decide)
      exact @setFields before index thread { thread with stage := .counted }
        graceful owned _ running notEnded rfl ready fun never => nomatch never
  | @leave index thread running counted unlocked mapped =>
      have notEnded : thread.stage ≠ .exited := by
        rw [counted]
        decide
      have ready := (graceful.grace _ _ running notEnded).ready (by
        rw [counted]
        decide)
      exact @setFields before index thread { thread with stage := .sandbox }
        graceful owned _ running notEnded rfl ready fun _ => rfl
  | exit running ready freed =>
      exact graceful.setThread (fun _ => ready) fun never => absurd rfl never
  | allocate running counted unlocked fresh unused returned =>
      exact graceful.allocate owned kept fresh returned
  | @start index block waiting unused =>
      have started := @setThread before index
        ⟨block.self, block.tcbInsideSandbox, .sandbox, false, none⟩ graceful
        (fun _ => rfl) fun _ => .ofFresh (fun _ never => nomatch never)
          (fun _ never => nomatch never) fun _ => graceful.waiting block waiting
      exact ⟨started.ended, fun other otherThread found notEnded =>
        (started.grace other otherThread found notEnded).frame rfl rfl rfl fun _ =>
          rfl,
        fun block listed => graceful.waiting block (List.mem_of_mem_erase listed)⟩
  | abort running counted unlocked waiting returned =>
      obtain ⟨victim, freed⟩ := freeTcb_ok kept.blocks.distinct returned
      refine ⟨graceful.ended, fun other otherThread found notEnded => ?_,
        fun block listed => ?_⟩
      · exact afterFree ownedAfter freed
          (graceful.grace other otherThread found notEnded) found notEnded rfl rfl
      · rw [freed.memoryIs]
        exact graceful.waiting block (List.mem_of_mem_erase listed)
  | @free index thread blocks running counted unlocked alive returned =>
      obtain ⟨victim, freed⟩ := freeTcb_ok kept.blocks.distinct returned
      have notEnded : thread.stage ≠ .exited := by
        rw [counted]
        decide
      have grace := graceful.grace index thread running notEnded
      have marked := @setThread before index { thread with freed := true } graceful
        (fun never => absurd never notEnded) fun _ =>
          ⟨grace.past, grace.flag, (fun never => nomatch never), fun never =>
            nomatch never⟩
      refine ⟨marked.ended, fun other otherThread found otherNotEnded => ?_,
        fun block listed => ?_⟩
      · exact @afterFree (before.setThread index { thread with freed := true }) _ _
          _ _ _ ownedAfter freed (marked.grace other otherThread found otherNotEnded)
          found otherNotEnded rfl rfl
      · rw [freed.memoryIs]
        exact graceful.waiting block listed
  | update running counted unlocked =>
      refine graceful.updating rfl rfl rfl
        fun other otherThread found notEnded grace => ?_
      refine grace.updating (fun todo never => ?_) fun alive absent => ?_
      · rw [kept.locked unlocked] at never
        cases never
      · obtain ⟨node, listed, here, _⟩ := exists_node owned found notEnded alive
        exact absurd (here ▸ List.mem_map_of_mem listed) absent
  | lookedAll scanning =>
      refine graceful.updating rfl rfl rfl
        fun other otherThread found notEnded grace => ?_
      refine grace.updating (fun todo never => ?_) fun alive => ?_
      · rw [scanning] at never
        cases never
      · have passed := grace.passed alive
        rw [System.Passed, scanning] at passed
        exact passed List.not_mem_nil
  | lookRemoved scanning removed =>
      refine graceful.updating rfl rfl rfl
        fun other otherThread found notEnded grace => ?_
      refine grace.updating (fun todo never => ?_) fun alive absent => ?_
      · rw [scanning] at never
        cases never
      · have passed := grace.passed alive
        rw [System.Passed, scanning] at passed
        have apart := lookRemoved owned kept (by rw [scanning]; rfl) removed found
          notEnded alive
        exact passed fun listed => (List.mem_cons.mp listed).elim apart absent
  | @lookAt tcb todo scanning keptNode =>
      refine graceful.updating rfl rfl rfl
        fun other otherThread found notEnded grace => ?_
      have notRecording : ∀ todo, before.updater ≠ .recording todo := by
        intro todo never
        rw [scanning] at never
        cases never
      refine grace.updating notRecording fun alive absent => ?_
      have passed := grace.passed alive
      rw [System.Passed, scanning] at passed
      by_cases here : otherThread.tcb = tcb.self
      · rcases grace.count_recorded alive notRecording with fresh | same
        · exact Or.inl fresh
        · exact Or.inr ⟨here, here ▸ same⟩
      · exact Or.inl
          (passed fun listed => (List.mem_cons.mp listed).elim here absent)
  | compareStayed sampled outside same =>
      refine graceful.updating rfl rfl rfl
        fun other otherThread found notEnded grace => ?_
      refine grace.updating (fun todo never => ?_) fun _ => trivial
      rw [sampled] at never
      cases never
  | @compareEscaped tcb thescs recorded todo sampled foundEntry escaped =>
      refine graceful.updating rfl rfl rfl
        fun other otherThread found notEnded grace => ?_
      refine grace.updating (fun todo never => ?_) fun alive absent => ?_
      · rw [sampled] at never
        cases never
      · have passed := grace.passed alive
        rw [System.Passed, sampled] at passed
        by_contra stale
        rcases passed absent with fresh | ⟨here, same⟩
        · exact stale fresh
        · have outside := grace.flag (grace.inside_of_stale stale)
          rw [here] at outside same
          rcases escaped with inside | apart
          · rw [outside] at inside
            cases inside
          · exact apart (Option.some.inj (same.symm.trans foundEntry))
  | again answered =>
      refine graceful.updating rfl rfl rfl
        fun other otherThread found notEnded grace => ?_
      refine grace.updating (fun todo never => ?_) fun alive absent => ?_
      · rw [answered] at never
        cases never
      · obtain ⟨node, listed, here, _⟩ := exists_node owned found notEnded alive
        exact absurd (here ▸ List.mem_map_of_mem listed) absent
  | complete answered =>
      refine graceful.updating rfl rfl rfl
        fun other otherThread found notEnded grace => ?_
      refine ⟨fun loaded checking => ?_, grace.flag, fun alive => ?_, fun _ =>
        trivial⟩
      · exact (grace.past loaded checking).imp_left (Nat.le_succ_of_le ·)
      · obtain ⟨node, listed, here, _⟩ := exists_node owned found notEnded alive
        exact Or.inr (Or.inr ⟨_, rfl, here ▸ List.mem_map_of_mem listed⟩)
  | @recordRemoved tcb todo recording removed =>
      refine graceful.updating rfl rfl rfl
        fun other otherThread found notEnded grace => ?_
      refine ⟨grace.past, grace.flag, fun alive => ?_, fun _ => trivial⟩
      have apart := lookRemoved owned kept (by rw [recording]; rfl) removed found
        notEnded alive
      rcases grace.recorded alive with fresh | same | ⟨old, oldIs, listed⟩
      · exact Or.inl fresh
      · exact Or.inr (Or.inl same)
      · rw [recording] at oldIs
        cases oldIs
        exact Or.inr (Or.inr ⟨todo, rfl, (List.mem_cons.mp listed).resolve_left
          apart⟩)
  | @recordAt tcb todo recording keptNode foundEntry =>
      refine graceful.updating rfl rfl rfl
        fun other otherThread found notEnded grace => ?_
      refine ⟨grace.past, grace.flag, fun alive => ?_, fun _ => trivial⟩
      by_cases here : otherThread.tcb = tcb.self
      · obtain ⟨old, entry⟩ := OrdDict.exists_find_of_mem foundEntry
        refine Or.inr (Or.inl ?_)
        change OrdDict.find (OrdDict.modify _ _ _) _ = _
        rw [OrdDict.find_modify, if_pos here, here, entry]
        rfl
      · rcases grace.recorded alive with fresh | same | ⟨old, oldIs, listed⟩
        · exact Or.inl fresh
        · refine Or.inr (Or.inl ?_)
          change OrdDict.find (OrdDict.modify _ _ _) _ = _
          rw [OrdDict.find_modify, if_neg here]
          exact same
        · rw [recording] at oldIs
          cases oldIs
          exact Or.inr (Or.inr ⟨todo, rfl,
            (List.mem_cons.mp listed).resolve_left here⟩)
  | recordedAll recording =>
      refine graceful.updating rfl rfl rfl
        fun other otherThread found notEnded grace => ?_
      refine ⟨grace.past, grace.flag, fun alive => ?_, fun _ => trivial⟩
      rcases grace.recorded alive with fresh | same | ⟨old, oldIs, listed⟩
      · exact Or.inl fresh
      · exact Or.inr (Or.inl same)
      · rw [recording] at oldIs
        cases oldIs
        cases listed

/-- In a run whose `free_tcb`s wait, what is known of the threads holds. -/
theorem run {admits : System → Event → Prop} {tcb user escapes : Nat}
    {state : System}
    (waits : ∀ system event, admits system event → event.WaitsForExits system)
    (run : SystemRun admits (.boot tcb user escapes) state) : Graceful state := by
  induction run with
  | refl =>
      refine ⟨fun index thread running _ => ?_,
        fun index thread running _ => ?_, fun _ never => nomatch never⟩
      · rw [(System.boot_thread running).2]
      · obtain ⟨_, rfl⟩ := System.boot_thread running
        exact .ofFresh (fun _ never => nomatch never) (fun _ never => nomatch never)
          fun never => nomatch never
  | tail earlier last inductionHypothesis =>
      obtain ⟨event, admitted, last⟩ := last
      exact inductionHypothesis.step (Owned.run (SystemRun.mono earlier waits))
        (System.Kept.run earlier) (waits _ event admitted) last

end Graceful

section Assertions

variable {admits : System → Event → Prop} {system state : System}
  {tcb user escapes : Nat}

/-- `safe` returns when the blocks that are not marked have entries. -/
theorem safe_returns {nodes : List TcbNode} (blocks : ThreadBlocks)
    (entries : ∀ node ∈ nodes, node.remove = false →
      node.self ∈ blocks.threadEscapeMap) :
    ∃ answer, safe blocks.threadEscapeMap
      (ThreadBlocks.tcbs { blocks with tcbList := nodes }) = .ok answer := by
  induction nodes with
  | nil => exact ⟨true, rfl⟩
  | cons node rest inductionHypothesis =>
      obtain ⟨answer, returned⟩ := inductionHypothesis fun other listed =>
        entries other (List.mem_cons_of_mem _ listed)
      rw [ThreadBlocks.tcbs, List.map_cons, safe]
      split
      next => exact ⟨answer, returned⟩
      next kept =>
        have present := entries node List.mem_cons_self
          (Bool.eq_false_iff.mpr kept)
        obtain ⟨recorded, found⟩ := OrdDict.exists_find_of_mem present
        simp only [dictFind, found]
        split
        next => exact ⟨false, rfl⟩
        next => exact ⟨answer, returned⟩

/-- The scan of an update that nothing disturbs answers as `safe` does. -/
theorem safe_scans {nodes : List TcbNode} {answer : Bool}
    (returned : safe system.blocks.threadEscapeMap
      (ThreadBlocks.tcbs { system.blocks with tcbList := nodes }) = .ok answer) :
    SystemRun (fun _ event => event = .look ∨ event = .compare)
      { system with updater := .scanning nodes }
      { system with updater := .answered answer } := by
  induction nodes with
  | nil =>
      cases returned
      exact SystemRun.refl.step (.lookedAll rfl) (Or.inl rfl)
  | cons node rest inductionHypothesis =>
      rw [ThreadBlocks.tcbs, List.map_cons, safe] at returned
      split at returned
      next removed =>
        exact (SystemRun.refl.step (.lookRemoved rfl removed) (Or.inl rfl)).trans
          (inductionHypothesis returned)
      next kept =>
        have looked := (@SystemRun.refl
          (fun _ event => event = .look ∨ event = .compare)
          { system with updater := .scanning (node :: rest) }).step
            (.lookAt rfl (Bool.eq_false_iff.mpr kept)) (Or.inl rfl)
        split at returned
        next => cases returned
        next recorded found =>
          split at returned
          next stayed =>
            cases returned
            simp only [Bool.and_eq_true, Bool.not_eq_true', beq_iff_eq] at stayed
            refine looked.step (.compareStayed rfl stayed.1 ?_) (Or.inr rfl)
            exact stayed.2 ▸ found
          next escaped =>
            refine (looked.step (.compareEscaped rfl found ?_) (Or.inr rfl)).trans
              (inductionHypothesis returned)
            simp only [Bool.and_eq_true, Bool.not_eq_true', beq_iff_eq,
              not_and_or, Bool.not_eq_false] at escaped
            exact escaped

/-- An update that nothing disturbs gets the answer of `safe`. -/
theorem update_answers {index : Nat} {thread : Thread} {answer : Bool}
    (running : system.threads index = some thread)
    (counted : thread.stage = .counted) (unlocked : system.holder = none)
    (returned : safe system.blocks.threadEscapeMap system.blocks.tcbs =
      .ok answer) :
    SystemRun (fun _ event => event = .update index ∨ event = .look ∨
        event = .compare) system
      { system with updater := .answered answer, holder := some index } := by
  have begun := (@SystemRun.refl (fun _ event => event = .update index ∨
    event = .look ∨ event = .compare) system).step
      (.update running counted unlocked) (Or.inl rfl)
  exact begun.trans ((@safe_scans { system with holder := some index } _ _
    returned).mono fun _ _ scans => Or.inr scans)

/-- `update_thesc` returns when the blocks that are not marked have entries. -/
theorem updateThesc_returns {nodes : List TcbNode} (system : System)
    (entries : ∀ node ∈ nodes, node.remove = false →
      node.self ∈ system.blocks.threadEscapeMap) :
    ∃ recorded,
      updateThesc (ThreadBlocks.tcbs { system.blocks with tcbList := nodes })
        system.blocks.threadEscapeMap = .ok recorded ∧
      SystemRun (fun _ event => event = .record)
        { system with updater := .recording nodes }
        { system with
          blocks := { system.blocks with threadEscapeMap := recorded }
          updater := .idle
          holder := none } := by
  induction nodes generalizing system with
  | nil =>
      exact ⟨_, rfl, SystemRun.refl.step (.recordedAll rfl) rfl⟩
  | cons node rest inductionHypothesis =>
      rw [ThreadBlocks.tcbs, List.map_cons, updateThesc, List.foldlM_cons]
      cases marked : node.remove with
      | true =>
          obtain ⟨recorded, returned, runs⟩ := inductionHypothesis system
            fun other listed => entries other (List.mem_cons_of_mem _ listed)
          exact ⟨recorded, returned,
            (SystemRun.refl.step (.recordRemoved rfl marked) rfl).trans runs⟩
      | false =>
          have present := entries node List.mem_cons_self marked
          obtain ⟨old, found⟩ := OrdDict.exists_find_of_mem present
          obtain ⟨recorded, returned, runs⟩ := inductionHypothesis
            { system with
              blocks := { system.blocks with
                threadEscapeMap := system.blocks.threadEscapeMap.modify node.self
                  fun _ => (system.blocks.memory node.self).sandboxEscape } }
            fun other listed notMarked => OrdDict.mem_modify.mpr
              (entries other (List.mem_cons_of_mem _ listed) notMarked)
          have recordedNode := (@SystemRun.refl (fun _ event => event = .record)
            { system with updater := .recording (node :: rest) }).step
              (.recordAt rfl marked present) rfl
          simp only [dictFind, found]
          exact ⟨recorded, returned, recordedNode.trans runs⟩

/-- No assertion about `thread_escape_map` can fail in the next step. -/
structure AssertionsHold (system : System) : Prop where
  safe : ∃ answer, safe system.blocks.threadEscapeMap system.blocks.tcbs =
    .ok answer
  updateThesc : ∃ recorded,
    updateThesc system.blocks.tcbs system.blocks.threadEscapeMap = .ok recorded
  walk : ∀ node ∈ system.updater.todo, node.remove = false →
    node.self ∈ system.blocks.threadEscapeMap
  added : ∀ user addr, user ≤ fourGB → addr ∉ system.blocks.mapped →
    ∃ blocks, allocsetTcb user addr system.blocks = .ok blocks

theorem assertionsHold (kept : state.Kept) : AssertionsHold state := by
  have entries : ∀ node ∈ state.blocks.tcbList, node.remove = false →
      node.self ∈ state.blocks.threadEscapeMap := by
    intro node listed notMarked
    apply (kept.blocks.keys node.self).mpr
    exact ⟨node, ThreadBlocks.mem_unmarked.mpr ⟨listed, notMarked⟩, rfl⟩
  obtain ⟨recorded, returned, _⟩ := updateThesc_returns state entries
  exact ⟨safe_returns state.blocks entries, ⟨recorded, returned⟩,
    fun node listed => entries node (kept.walk node listed),
    fun _ _ inside fresh => kept.blocks.allocate_returns fresh inside⟩

end Assertions

section Soundness

variable {admits : System → Event → Prop} {state : System}
  {tcb user escapes : Nat}

end Soundness

end Mcfi
