import Mcfi.Threads

namespace Mcfi

/-!
# A control block outlives its thread

A thread that has called `free_tcb` still returns through its control block, and
then asks the kernel to end it.  Its block is marked and stays until the next
`free_tcb`, which does not know whether the thread has ended.
-/

/-- Every thread that has not ended has its control block mapped. -/
def TcbsMapped (system : System) : Prop :=
  ∀ index thread, system.threads index = some thread →
    thread.stage ≠ .exited → thread.tcb ∈ system.blocks.mapped

/-- Every thread that has called `free_tcb` has ended. -/
def NoneLeaving (system : System) : Prop :=
  ∀ index thread, system.threads index = some thread → thread.freed = true →
    thread.stage = .exited

/-- A `free_tcb` waits for the threads that have called it to end. -/
def Event.WaitsForExits (system : System) : Event → Prop
  | .free _ => NoneLeaving system
  | .abort _ _ => NoneLeaving system
  | _ => True

/-- Whose control blocks the nodes of the list are. -/
structure Owned (system : System) : Prop where
  owner : ∀ index thread, system.threads index = some thread →
    thread.stage ≠ .exited → ∃ node ∈ system.blocks.tcbList,
      node.self = thread.tcb ∧ node.remove = thread.freed ∧
        (thread.freed = false → node.tcbInsideSandbox = thread.user)
  apart : ∀ index other thread otherThread,
    system.threads index = some thread →
      system.threads other = some otherThread → thread.stage ≠ .exited →
        otherThread.stage ≠ .exited → thread.tcb = otherThread.tcb →
          index = other
  waiting : ∀ block ∈ system.pending, block ∈ system.blocks.unmarked
  unstarted : ∀ block ∈ system.pending, ∀ index thread,
    system.threads index = some thread → thread.stage ≠ .exited →
      thread.tcb ≠ block.self
  once : system.pending.Nodup
  insides : ∀ first ∈ system.blocks.unmarked,
    ∀ second ∈ system.blocks.unmarked,
      first.tcbInsideSandbox = second.tcbInsideSandbox → first = second

namespace Owned

variable {before after : System} {index : Nat} {thread changed : Thread}

/-- The block of a thread that has not ended is mapped. -/
theorem tcbsMapped (owned : Owned before) (kept : before.Kept) :
    TcbsMapped before := by
  intro index thread running notEnded
  obtain ⟨node, listed, here, _⟩ := owned.owner index thread running notEnded
  exact here ▸ kept.blocks.mapped node listed

/-- Threads that keep their control blocks keep them apart. -/
theorem threadsApart (owned : Owned before)
    (was : ∀ other otherThread, after.threads other = some otherThread →
      otherThread.stage ≠ .exited → ∃ old, before.threads other = some old ∧
        old.stage ≠ .exited ∧ otherThread.tcb = old.tcb) :
    (∀ first second firstThread secondThread,
      after.threads first = some firstThread →
        after.threads second = some secondThread →
          firstThread.stage ≠ .exited → secondThread.stage ≠ .exited →
            firstThread.tcb = secondThread.tcb → first = second) ∧
    (∀ block ∈ before.pending, ∀ other otherThread,
      after.threads other = some otherThread → otherThread.stage ≠ .exited →
        otherThread.tcb ≠ block.self) := by
  constructor
  · intro first second firstThread secondThread firstFound secondFound
      firstNotEnded secondNotEnded same
    obtain ⟨firstOld, firstWas, firstOldNotEnded, firstTcb⟩ :=
      was first firstThread firstFound firstNotEnded
    obtain ⟨secondOld, secondWas, secondOldNotEnded, secondTcb⟩ :=
      was second secondThread secondFound secondNotEnded
    exact owned.apart first second firstOld secondOld firstWas secondWas
      firstOldNotEnded secondOldNotEnded (by rw [← firstTcb, ← secondTcb, same])
  · intro block listed other otherThread found notEnded
    obtain ⟨old, oldFound, oldNotEnded, tcbIs⟩ :=
      was other otherThread found notEnded
    rw [tcbIs]
    exact owned.unstarted block listed other old oldFound oldNotEnded

/-- A thread that changes, but not its control block. -/
private theorem was_setThread
    (running : before.threads index = some thread)
    (sameTcb : changed.tcb = thread.tcb)
    (goesOn : changed.stage ≠ .exited → thread.stage ≠ .exited)
    (other : Nat) (otherThread : Thread)
    (found : (before.setThread index changed).threads other = some otherThread)
    (notEnded : otherThread.stage ≠ .exited) :
    ∃ old, before.threads other = some old ∧ old.stage ≠ .exited ∧
      otherThread.tcb = old.tcb := by
  rcases System.setThread_cases found with ⟨rfl, rfl⟩ | ⟨_, old⟩
  · exact ⟨thread, running, goesOn notEnded, sameTcb⟩
  · exact ⟨otherThread, old, notEnded, rfl⟩

/-- A thread goes on, or ends, with the same control block. -/
theorem setThread (owned : Owned before)
    (running : before.threads index = some thread)
    (sameTcb : changed.tcb = thread.tcb) (sameUser : changed.user = thread.user)
    (sameFreed : changed.freed = thread.freed)
    (goesOn : changed.stage ≠ .exited → thread.stage ≠ .exited) :
    Owned (before.setThread index changed) := by
  obtain ⟨apart, unstarted⟩ :=
    owned.threadsApart (was_setThread running sameTcb goesOn)
  refine ⟨?_, apart, owned.waiting, unstarted, owned.once, owned.insides⟩
  intro other otherThread found notEnded
  rcases System.setThread_cases found with ⟨rfl, rfl⟩ | ⟨_, old⟩
  · rw [sameTcb, sameUser, sameFreed]
    exact owned.owner other thread running (goesOn notEnded)
  · exact owned.owner other otherThread old notEnded

/-- A new block is nobody's yet. -/
theorem allocate (owned : Owned before) (kept : before.Kept)
    {user addr : Nat} {blocks : ThreadBlocks}
    (fresh : addr ∉ before.blocks.mapped)
    (unused : ∀ node ∈ before.blocks.tcbList, node.remove = false →
      node.tcbInsideSandbox ≠ user)
    (returned : allocsetTcb user addr before.blocks = .ok blocks) :
    Owned { before with
      blocks := blocks
      pending := ⟨addr, user, false⟩ :: before.pending } := by
  obtain ⟨_, rfl⟩ := allocsetTcb_ok returned
  have unmarkedIs : ∀ node : TcbNode,
      node ∈ (⟨addr, user, false⟩ :: before.blocks.unmarked : List TcbNode) ↔
        node = ⟨addr, user, false⟩ ∨ node ∈ before.blocks.unmarked :=
    fun node => List.mem_cons
  refine ⟨?_, owned.apart, ?_, ?_, ?_, ?_⟩
  · intro index thread running notEnded
    obtain ⟨node, listed, whose⟩ := owned.owner index thread running notEnded
    exact ⟨node, List.mem_cons_of_mem _ listed, whose⟩
  · intro block listed
    apply (unmarkedIs block).mpr
    exact (List.mem_cons.mp listed).imp_right (owned.waiting block)
  · intro block listed index thread running notEnded
    rcases List.mem_cons.mp listed with rfl | old
    · have mapped := owned.tcbsMapped kept index thread running notEnded
      intro (same : thread.tcb = addr)
      exact fresh (same ▸ mapped)
    · exact owned.unstarted block old index thread running notEnded
  · refine List.nodup_cons.mpr ⟨fun listed => ?_, owned.once⟩
    have inList := ThreadBlocks.mem_unmarked.mp (owned.waiting _ listed)
    exact fresh (kept.blocks.mapped _ inList.1)
  · have others : ∀ node ∈ before.blocks.unmarked,
        node.tcbInsideSandbox ≠ user := fun node listed =>
      unused node (ThreadBlocks.mem_unmarked.mp listed).1
        (ThreadBlocks.mem_unmarked.mp listed).2
    intro first firstListed second secondListed same
    rcases (unmarkedIs first).mp firstListed with rfl | firstOld
    · rcases (unmarkedIs second).mp secondListed with rfl | secondOld
      · rfl
      · exact absurd same.symm (others second secondOld)
    · rcases (unmarkedIs second).mp secondListed with rfl | secondOld
      · exact absurd same (others first firstOld)
      · exact owned.insides first firstOld second secondOld same

/-- A new thread takes the block that was allocated for it. -/
theorem start (owned : Owned before) (kept : before.Kept) {block : TcbNode}
    (waiting : block ∈ before.pending)
    (unused : before.threads index = none) :
    Owned { before.setThread index
        ⟨block.self, block.tcbInsideSandbox, .sandbox, false, none⟩ with
      pending := before.pending.erase block } := by
  have inList := ThreadBlocks.mem_unmarked.mp (owned.waiting block waiting)
  refine ⟨?_, ?_, ?_, ?_, owned.once.erase block, owned.insides⟩
  · intro other otherThread found notEnded
    rcases System.setThread_cases found with ⟨_, rfl⟩ | ⟨_, old⟩
    · exact ⟨block, inList.1, rfl, inList.2, fun _ => rfl⟩
    · exact owned.owner other otherThread old notEnded
  · intro first second firstThread secondThread firstFound secondFound
      firstNotEnded secondNotEnded same
    rcases System.setThread_cases firstFound with ⟨rfl, rfl⟩ | ⟨_, firstOld⟩
    · rcases System.setThread_cases secondFound with ⟨rfl, _⟩ | ⟨_, secondOld⟩
      · rfl
      · exact absurd same.symm (owned.unstarted block waiting second
          secondThread secondOld secondNotEnded)
    · rcases System.setThread_cases secondFound with ⟨rfl, rfl⟩ |
        ⟨_, secondOld⟩
      · exact absurd same (owned.unstarted block waiting first firstThread
          firstOld firstNotEnded)
      · exact owned.apart first second firstThread secondThread firstOld
          secondOld firstNotEnded secondNotEnded same
  · exact fun other listed => owned.waiting other (List.mem_of_mem_erase listed)
  · intro other listed otherIndex otherThread found notEnded
    rcases System.setThread_cases found with ⟨_, rfl⟩ | ⟨_, old⟩
    · intro same
      have otherIn := ThreadBlocks.mem_unmarked.mp
        (owned.waiting other (List.mem_of_mem_erase listed))
      have one := kept.blocks.node_unique inList.1 otherIn.1 same
      exact (owned.once.mem_erase_iff.mp listed).1 one.symm
    · exact owned.unstarted other (List.mem_of_mem_erase listed) otherIndex
        otherThread old notEnded

/--
`free_tcb` with the descriptor of an unmarked block marks that block, and when
every thread that has called it has ended the other threads keep theirs.
-/
theorem afterFree (owned : Owned before) (kept : before.Kept)
    (waits : NoneLeaving before) {block : TcbNode} {blocks : ThreadBlocks}
    (listed : block ∈ before.blocks.unmarked)
    (returned : freeTcb block.tcbInsideSandbox before.blocks = .ok blocks) :
    (∃ node ∈ blocks.tcbList, node.self = block.self ∧ node.remove = true) ∧
    (∀ index thread, before.threads index = some thread →
      thread.stage ≠ .exited → thread.tcb ≠ block.self →
        ∃ node ∈ blocks.tcbList, node.self = thread.tcb ∧
          node.remove = thread.freed ∧
            (thread.freed = false → node.tcbInsideSandbox = thread.user)) ∧
    (∀ other ∈ before.blocks.unmarked, other.self ≠ block.self →
      other ∈ blocks.unmarked) ∧
    (∀ first ∈ blocks.unmarked, ∀ second ∈ blocks.unmarked,
      first.tcbInsideSandbox = second.tcbInsideSandbox → first = second) := by
  obtain ⟨victim, freed⟩ := freeTcb_ok kept.blocks.distinct returned
  have victimIs : victim = some block.self := by
    cases victimIs : victim with
    | none => exact absurd rfl (freed.absent victimIs block listed)
    | some addr =>
        obtain ⟨node, nodeListed, rfl, sameInside⟩ :=
          freed.present addr victimIs
        rw [owned.insides node nodeListed block listed sameInside]
  subst victimIs
  have stays : ∀ other ∈ before.blocks.unmarked, other.self ≠ block.self →
      other ∈ blocks.unmarked := by
    intro other otherListed apart
    have same : other.markAt (some block.self) = other := by
      rw [TcbNode.markAt, if_neg (by simpa using Ne.symm apart)]
    refine ThreadBlocks.mem_unmarked.mpr
      ⟨?_, (ThreadBlocks.mem_unmarked.mp otherListed).2⟩
    rw [freed.listIs]
    exact List.mem_map.mpr ⟨other, otherListed, same⟩
  refine ⟨⟨block.markAt (some block.self), ?_, block.markAt_self _, ?_⟩, ?_,
    stays, ?_⟩
  · rw [freed.listIs]
    exact List.mem_map_of_mem listed
  · simp [TcbNode.markAt]
  · intro index thread running notEnded apart
    obtain ⟨node, nodeListed, here, freedIs, inside⟩ :=
      owned.owner index thread running notEnded
    have alive : thread.freed = false := by
      cases hasFreed : thread.freed with
      | false => rfl
      | true => exact absurd (waits index thread running hasFreed) notEnded
    have unmarked : node ∈ before.blocks.unmarked :=
      ThreadBlocks.mem_unmarked.mpr ⟨nodeListed, freedIs.trans alive⟩
    have stayed := stays node unmarked (here ▸ apart)
    exact ⟨node, (ThreadBlocks.mem_unmarked.mp stayed).1, here, freedIs, inside⟩
  · have old : ∀ node ∈ blocks.unmarked, node ∈ before.blocks.unmarked := by
      intro node nodeListed
      obtain ⟨inList, notMarked⟩ := ThreadBlocks.mem_unmarked.mp nodeListed
      rw [freed.listIs] at inList
      obtain ⟨source, sourceListed, rfl⟩ := List.mem_map.mp inList
      have spared := ((source.markAt_remove _).mp notMarked).2
      rw [TcbNode.markAt, if_neg spared]
      exact sourceListed
    exact fun first firstListed second secondListed =>
      owned.insides first (old first firstListed) second (old second secondListed)

/-- The block of a thread that could not be started is marked. -/
theorem abort (owned : Owned before) (kept : before.Kept)
    (waits : NoneLeaving before) {block : TcbNode} {blocks : ThreadBlocks}
    (waiting : block ∈ before.pending)
    (returned : freeTcb block.tcbInsideSandbox before.blocks = .ok blocks) :
    Owned { before with
      blocks := blocks
      pending := before.pending.erase block } := by
  have listed := owned.waiting block waiting
  obtain ⟨_, threads, stays, insides⟩ :=
    owned.afterFree kept waits listed returned
  refine ⟨fun index thread running notEnded => threads index thread running
    notEnded (owned.unstarted block waiting index thread running notEnded),
    owned.apart, fun other otherListed => ?_, fun other otherListed =>
      owned.unstarted other (List.mem_of_mem_erase otherListed),
    owned.once.erase block, insides⟩
  have otherWaits := owned.waiting other (List.mem_of_mem_erase otherListed)
  refine stays other otherWaits fun same => ?_
  have one := kept.blocks.node_unique (ThreadBlocks.mem_unmarked.mp otherWaits).1
    (ThreadBlocks.mem_unmarked.mp listed).1 same
  exact (owned.once.mem_erase_iff.mp otherListed).1 one

/-- The block of a thread that calls `free_tcb` is marked. -/
theorem free (owned : Owned before) (kept : before.Kept)
    (waits : NoneLeaving before) {blocks : ThreadBlocks}
    (running : before.threads index = some thread)
    (notEnded : thread.stage ≠ .exited) (alive : thread.freed = false)
    (returned : freeTcb thread.user before.blocks = .ok blocks) :
    Owned { before.setThread index { thread with freed := true } with
      blocks := blocks } := by
  obtain ⟨own, ownListed, ownHere, ownFreed, ownInside⟩ :=
    owned.owner index thread running notEnded
  have unmarked : own ∈ before.blocks.unmarked :=
    ThreadBlocks.mem_unmarked.mpr ⟨ownListed, ownFreed.trans alive⟩
  rw [← ownInside alive] at returned
  obtain ⟨marked, threads, stays, insides⟩ :=
    owned.afterFree kept waits unmarked returned
  obtain ⟨apart, unstarted⟩ := owned.threadsApart (@was_setThread before index
    thread { thread with freed := true } running rfl id)
  refine ⟨?_, apart, ?_, unstarted, owned.once, insides⟩
  · intro other otherThread found otherNotEnded
    rcases System.setThread_cases found with ⟨rfl, rfl⟩ | ⟨distinct, old⟩
    · obtain ⟨node, listed, here, isMarked⟩ := marked
      exact ⟨node, listed, here.trans ownHere, isMarked, fun never =>
        nomatch never⟩
    · refine threads other otherThread old otherNotEnded fun sameTcb => ?_
      exact distinct (owned.apart other index otherThread thread old running
        otherNotEnded notEnded (sameTcb.trans ownHere))
  · intro other listed
    exact stays other (owned.waiting other listed) fun same =>
      owned.unstarted other listed index thread running notEnded
        (ownHere.symm.trans same.symm)

/-- A thread goes on, in a system that differs in other parts only. -/
theorem goesOn {other : System} (owned : Owned before)
    (running : before.threads index = some thread)
    (sameTcb : changed.tcb = thread.tcb) (sameUser : changed.user = thread.user)
    (sameFreed : changed.freed = thread.freed)
    (notEnded : thread.stage ≠ .exited)
    (sameThreads : other.threads = (before.setThread index changed).threads)
    (sameList : other.blocks.tcbList = before.blocks.tcbList)
    (samePending : other.pending = before.pending) : Owned other := by
  obtain ⟨owner, apart, waiting, unstarted, once, insides⟩ :=
    owned.setThread running sameTcb sameUser sameFreed fun _ => notEnded
  have sameUnmarked : other.blocks.unmarked = before.blocks.unmarked := by
    rw [ThreadBlocks.unmarked, sameList]
    rfl
  refine ⟨?_, ?_, ?_, ?_, ?_, ?_⟩
  · rw [sameThreads, sameList]
    exact owner
  · rw [sameThreads]
    exact apart
  · rw [samePending, sameUnmarked]
    exact waiting
  · rw [samePending, sameThreads]
    exact unstarted
  · rw [samePending]
    exact once
  · rw [sameUnmarked]
    exact insides

/-- A step that waits for the threads that leave keeps every block owned. -/
theorem step (owned : Owned before) (kept : before.Kept) {event : Event}
    (waits : event.WaitsForExits before) (step : Step before event after) :
    Owned after := by
  have same : ∀ {threadEscapeMap updates updater holder},
      Owned { before with
        blocks := { before.blocks with threadEscapeMap := threadEscapeMap }
        updates := updates
        updater := updater
        holder := holder } :=
    ⟨owned.owner, owned.apart, owned.waiting, owned.unstarted, owned.once,
      owned.insides⟩
  cases step with
  | load running inside ready => exact owned.setThread running rfl rfl rfl id
  | finish running checking => exact owned.setThread running rfl rfl rfl id
  | @enter index thread running inside ready mapped =>
      have notEnded : thread.stage ≠ .exited := by
        rw [inside]
        decide
      exact @goesOn before index thread { thread with stage := .entered } _ owned
        running rfl rfl rfl notEnded rfl rfl rfl
  | @count index thread running entered mapped =>
      have notEnded : thread.stage ≠ .exited := by
        rw [entered]
        decide
      exact @goesOn before index thread { thread with stage := .counted } _ owned
        running rfl rfl rfl notEnded rfl rfl rfl
  | @leave index thread running counted unlocked mapped =>
      have notEnded : thread.stage ≠ .exited := by
        rw [counted]
        decide
      exact @goesOn before index thread { thread with stage := .sandbox } _ owned
        running rfl rfl rfl notEnded rfl rfl rfl
  | exit running ready freed =>
      exact owned.setThread running rfl rfl rfl fun never => absurd rfl never
  | allocate running counted unlocked fresh unused returned =>
      exact owned.allocate kept fresh unused returned
  | start waiting unused => exact owned.start kept waiting unused
  | abort running counted unlocked waiting returned =>
      exact owned.abort kept waits waiting returned
  | free running counted unlocked alive returned =>
      exact owned.free kept waits running (by rw [counted]; decide) alive
        returned
  | update => exact same
  | lookedAll => exact same
  | lookRemoved => exact same
  | lookAt => exact same
  | compareStayed => exact same
  | compareEscaped => exact same
  | again => exact same
  | complete => exact same
  | recordRemoved => exact same
  | recordAt => exact same
  | recordedAll => exact same

/-- In a run whose `free_tcb`s wait, every block is owned. -/
theorem run {tcb user escapes : Nat} {state : System}
    (run : SystemRun (fun system event => event.WaitsForExits system)
      (.boot tcb user escapes) state) :
    Owned state := by
  induction run with
  | refl =>
      refine ⟨?_, ?_, (fun _ never => nomatch never), (fun _ never => nomatch
        never), List.nodup_nil, ?_⟩
      · intro index thread found _
        obtain ⟨_, rfl⟩ := System.boot_thread found
        exact ⟨⟨tcb, user, false⟩, List.mem_singleton_self _, rfl, rfl, fun _ =>
          rfl⟩
      · intro index other thread otherThread found otherFound _ _ _
        rw [(System.boot_thread found).1, (System.boot_thread otherFound).1]
      · intro first firstListed second secondListed _
        have firstIn := (ThreadBlocks.mem_unmarked.mp firstListed).1
        have secondIn := (ThreadBlocks.mem_unmarked.mp secondListed).1
        rw [List.mem_singleton.mp firstIn, List.mem_singleton.mp secondIn]
  | tail earlier step inductionHypothesis =>
      obtain ⟨_, waits, step⟩ := step
      exact inductionHypothesis.step (System.Kept.run earlier) waits step

end Owned

section Lifetime

variable {tcb user escapes : Nat} {state : System}

/--
A `free_tcb` keeps the blocks of all threads that have not ended mapped exactly
when every thread that has called it before has ended.
-/
theorem tcbsMapped_free_iff
    {before after : System} {index : Nat} (owned : Owned before)
    (kept : before.Kept) (step : Step before (.free index) after) :
    TcbsMapped after ↔ NoneLeaving before := by
  constructor
  · intro mapped other otherThread running freed
    by_contra notEnded
    cases step with
    | @free _ thread _ own counted unlocked alive returned =>
        obtain ⟨victim, effect⟩ := freeTcb_ok kept.blocks.distinct returned
        obtain ⟨node, listed, here, marked, _⟩ :=
          owned.owner other otherThread running notEnded
        have distinct : other ≠ index := by
          rintro rfl
          rw [own] at running
          cases running
          rw [alive] at freed
          cases freed
        have stillThere := mapped other otherThread (by
          change Function.update before.threads index _ other = _
          rw [Function.update_of_ne distinct]
          exact running) notEnded
        exact ((effect.mapped otherThread.tcb).mp stillThere).2 node listed
          (marked.trans freed) here
  · intro waits
    exact (@Owned.step before after owned kept (.free index) waits step).tcbsMapped
      (kept.step step)

/-- A second thread has called `free_tcb`, and has not ended. -/
def System.leaving : System where
  blocks :=
    { tcbList := [⟨8192, 512, true⟩, ⟨4096, 256, false⟩]
      threadEscapeMap := (∅ : OrdDict Nat Nat).insertNew 4096 0
      mapped := [8192, 4096]
      memory := Function.update (Function.update (Function.update
        (fun _ => ⟨0, true⟩) 8192 ⟨0, false⟩) 8192 ⟨0, true⟩) 8192 ⟨1, true⟩ }
  threads := Function.update (Function.update (Function.update
    (Function.update (System.boot 4096 256 0).threads
      1 (some ⟨8192, 512, .sandbox, false, none⟩))
      1 (some ⟨8192, 512, .entered, false, none⟩))
      1 (some ⟨8192, 512, .counted, false, none⟩))
      1 (some ⟨8192, 512, .counted, true, none⟩)
  pending := []
  updates := 0
  updater := .idle
  holder := none

/-- It leaves by admitted steps. -/
theorem System.leaving_run :
    SystemRun (fun system event => event.WaitsForExits system)
      (.boot 4096 256 0) .leaving := by
  have booted : SystemRun (fun system event => event.WaitsForExits system)
      (.boot 4096 256 0) (.boot 4096 256 0) := .refl
  have allocated := booted.step
    (@Step.allocate _ 0 512 8192 _ _ rfl rfl rfl (by decide) (by decide) rfl)
    trivial
  have started := allocated.step
    (@Step.start _ 1 ⟨8192, 512, false⟩ (List.mem_singleton_self _) rfl) trivial
  have entered := started.step (@Step.enter _ 1 ⟨8192, 512, .sandbox, false, none⟩
    rfl rfl rfl List.mem_cons_self) trivial
  have counted := entered.step (@Step.count _ 1 ⟨8192, 512, .entered, false, none⟩
    rfl rfl List.mem_cons_self) trivial
  refine counted.step (@Step.free _ 1 ⟨8192, 512, .counted, false, none⟩ _ rfl
    rfl rfl rfl rfl) ?_
  intro index thread running freed
  simp only [System.setFields, System.setThread, System.boot,
    Function.update_apply] at running
  grind

/--
In every run in which each `free_tcb` waits for the threads that have called it to
end, no control block is unmapped before its thread has ended.
-/
theorem tcb_outlives_thread
    (run : SystemRun (fun system event => event.WaitsForExits system)
      (.boot tcb user escapes) state) :
    TcbsMapped state :=
  (Owned.run run).tcbsMapped (System.Kept.run run)

/-- The second thread ends, and the main thread leaves after it. -/
theorem tcb_outlives_thread_exited : ∃ state,
    SystemRun (fun system event => event.WaitsForExits system)
        (.boot 4096 256 0) state ∧
      state.blocks.mapped = [4096] ∧ TcbsMapped state := by
  have exited := System.leaving_run.step
    (@Step.exit _ 1 ⟨8192, 512, .counted, true, none⟩ rfl rfl rfl) trivial
  have noneLeaving : NoneLeaving (System.leaving.setThread 1
      ⟨8192, 512, .exited, true, none⟩) := by
    intro index thread running freed
    simp only [System.leaving, System.setThread, System.boot,
      Function.update_apply] at running
    grind
  have freed := exited.step
    (@Step.free _ 0 ⟨4096, 256, .counted, false, none⟩ _ rfl rfl rfl rfl rfl)
    noneLeaving
  exact ⟨_, freed, rfl, tcb_outlives_thread freed⟩

/-- The main thread leaves before the second thread has ended. -/
theorem tcb_lost :
    ¬ ∀ tcb user escapes state,
      SystemRun (fun _ _ => True) (.boot tcb user escapes) state →
        TcbsMapped state := by
  intro always
  have allRuns : SystemRun (fun _ _ => True) (.boot 4096 256 0) .leaving :=
    System.leaving_run.mono fun _ _ _ => trivial
  have freed := allRuns.step
    (@Step.free _ 0 ⟨4096, 256, .counted, false, none⟩ _ rfl rfl rfl rfl rfl)
    trivial
  have mapped := always 4096 256 0 _ freed 1 ⟨8192, 512, .counted, true, none⟩
    rfl (by decide)
  exact absurd mapped (by decide)

end Lifetime

end Mcfi
