import Mathlib.Logic.Relation
import Mcfi.CodeHeap

namespace Mcfi

/-!
# Threads and their control blocks

A thread uses its control block as the base of `%fs` and as its stack in the
runtime, from the call that makes it until the kernel ends the thread.
`free_tcb` only marks the block; the next `free_tcb` of any thread unmaps it.

The runtime calls that change the list of blocks hold the runtime's lock, and so
does an update of the CFG.  Everything else that a thread does is interleaved
with the steps of an update.
-/

section Blocks

/-- A node of `tcb_list`. -/
structure TcbNode where
  self : Nat
  tcbInsideSandbox : Nat
  remove : Bool
  deriving DecidableEq

/-- The fields of a control block that its thread writes. -/
structure TcbFields where
  sandboxEscape : Nat
  insyscall : Bool
  deriving DecidableEq

/-- `tcb_list`, `thread_escape_map` and the memory of the control blocks. -/
structure ThreadBlocks where
  tcbList : List TcbNode
  threadEscapeMap : OrdDict Nat Nat
  mapped : List Nat
  memory : Nat → TcbFields

/-- The blocks as `safe` and `update_thesc` read them. -/
def ThreadBlocks.tcbs (blocks : ThreadBlocks) : List Tcb :=
  blocks.tcbList.map fun node =>
    { self := node.self
      remove := node.remove
      insyscall := (blocks.memory node.self).insyscall
      sandboxEscape := (blocks.memory node.self).sandboxEscape }

/-- `allocset_tcb`, when `alloc_tcb` has mapped a block, which is zeroed. -/
def allocsetTcb (sbTcb addr : Nat) (blocks : ThreadBlocks) : Rt ThreadBlocks :=
  if fourGB < sbTcb then
    .error (.quit "[set_tcb] sandbox tcb is out of sandbox\n")
  else do
    let threadEscapeMap ← dictAdd blocks.threadEscapeMap addr 0
    return {
      tcbList := ⟨addr, sbTcb, false⟩ :: blocks.tcbList
      threadEscapeMap := threadEscapeMap
      mapped := addr :: blocks.mapped
      memory := Function.update blocks.memory addr ⟨0, false⟩ }

/-- `remove_tcb_marked`, the loop over the nodes behind the head. -/
def removeTcbMarked.behind : List TcbNode → List TcbNode
  | [] => []
  | p :: rest =>
      if p.remove then removeTcbMarked.behind rest
      else p :: removeTcbMarked.behind rest

/-- `remove_tcb_marked`; `dealloc_tcb` unmaps a block. -/
def removeTcbMarked (blocks : ThreadBlocks) : Rt ThreadBlocks :=
  match blocks.tcbList with
  | [] => .error (.nullDeref "remove_tcb_marked")
  | head :: rest =>
      let kept := removeTcbMarked.behind rest
      .ok { blocks with
        tcbList := if head.remove then kept else head :: kept
        mapped := blocks.mapped.filter fun addr =>
          !blocks.tcbList.any fun node => node.remove && node.self == addr }

/-- `free_tcb`, the loop that marks the block of a thread. -/
def markTcb (userTcb : Nat) (threadEscapeMap : OrdDict Nat Nat) :
    List TcbNode → List TcbNode × OrdDict Nat Nat
  | [] => ([], threadEscapeMap)
  | tcb :: rest =>
      if tcb.tcbInsideSandbox = userTcb then
        ({ tcb with remove := true } :: rest, dictDel threadEscapeMap tcb.self)
      else
        let (marked, removed) := markTcb userTcb threadEscapeMap rest
        (tcb :: marked, removed)

/-- `free_tcb`. -/
def freeTcb (userTcb : Nat) (blocks : ThreadBlocks) : Rt ThreadBlocks := do
  let blocks ← removeTcbMarked blocks
  if blocks.tcbList.isEmpty then
    .error (.quit "[free_tcb] tcb_list is empty\n")
  else if fourGB < userTcb then
    .error (.quit "[free_tcb] user_tcb is outside of sandbox\n")
  else
    let (tcbList, threadEscapeMap) :=
      markTcb userTcb blocks.threadEscapeMap blocks.tcbList
    return { blocks with
      tcbList := tcbList
      threadEscapeMap := threadEscapeMap }

end Blocks

section Model

/-- Where a thread is: `IN_SYSCALL` is set, and then the escapes are counted. -/
inductive Stage where
  | sandbox
  | entered
  | counted
  | exited
  deriving DecidableEq

/--
A thread: its control block, its descriptor inside the sandbox, whether its
`free_tcb` has returned, and how many updates were complete when the check that it
is executing loaded its id.
-/
structure Thread where
  tcb : Nat
  user : Nat
  stage : Stage
  freed : Bool
  inflight : Option Nat
  deriving DecidableEq

/-- How far an update has come, with the nodes that a loop has yet to visit. -/
inductive Updater where
  | idle
  | scanning (todo : List TcbNode)
  | sampled (tcb : TcbNode) (thescs : Nat) (todo : List TcbNode)
  | answered (safe : Bool)
  | recording (todo : List TcbNode)

/-- The blocks, the threads, those that are not started yet, and the updates. -/
structure System where
  blocks : ThreadBlocks
  threads : Nat → Option Thread
  pending : List TcbNode
  updates : Nat
  updater : Updater
  holder : Option Nat

namespace System

/-- One thread changes. -/
def setThread (system : System) (index : Nat) (thread : Thread) : System :=
  { system with
    threads := Function.update system.threads index (some thread) }

/-- One block changes. -/
def setFields (system : System) (addr : Nat) (fields : TcbFields) : System :=
  { system with
    blocks := { system.blocks with
      memory := Function.update system.blocks.memory addr fields } }

/-- The main thread, inside `set_tcb`. -/
def boot (tcb user escapes : Nat) : System where
  blocks :=
    { tcbList := [⟨tcb, user, false⟩]
      threadEscapeMap := (∅ : OrdDict Nat Nat).insertNew tcb 0
      mapped := [tcb]
      memory := fun _ => ⟨escapes, true⟩ }
  threads := Function.update (fun _ => none) 0
    (some ⟨tcb, user, .counted, false, none⟩)
  pending := []
  updates := 0
  updater := .idle
  holder := none

end System

/-- What a thread does, or the thread that holds the lock. -/
inductive Event where
  | load (index : Nat)
  | finish (index : Nat)
  | enter (index : Nat)
  | count (index : Nat)
  | leave (index : Nat)
  | exit (index : Nat)
  | allocate (index user addr : Nat)
  | start (index : Nat) (block : TcbNode)
  | abort (index : Nat) (block : TcbNode)
  | free (index : Nat)
  | update (index : Nat)
  | look
  | compare
  | again
  | complete
  | record

/--
The steps of the system.  A thread executes no check while it is in the runtime or
in the kernel; a step that writes a control block needs it mapped.  A new block
is put where none is mapped, and a new descriptor is none of a thread that has not
called `free_tcb`.
-/
inductive Step (system : System) : Event → System → Prop where
  | load
      {index : Nat} {thread : Thread}
      (running : system.threads index = some thread)
      (inside : thread.stage = .sandbox) (ready : thread.inflight = none) :
      Step system (.load index)
        (system.setThread index
          { thread with inflight := some system.updates })
  | finish
      {index updates : Nat} {thread : Thread}
      (running : system.threads index = some thread)
      (checking : thread.inflight = some updates) :
      Step system (.finish index)
        (system.setThread index { thread with inflight := none })
  | enter
      {index : Nat} {thread : Thread}
      (running : system.threads index = some thread)
      (inside : thread.stage = .sandbox) (ready : thread.inflight = none)
      (mapped : thread.tcb ∈ system.blocks.mapped) :
      Step system (.enter index)
        ((system.setThread index { thread with stage := .entered }).setFields
          thread.tcb { system.blocks.memory thread.tcb with insyscall := true })
  | count
      {index : Nat} {thread : Thread}
      (running : system.threads index = some thread)
      (entered : thread.stage = .entered)
      (mapped : thread.tcb ∈ system.blocks.mapped) :
      Step system (.count index)
        ((system.setThread index { thread with stage := .counted }).setFields
          thread.tcb { system.blocks.memory thread.tcb with
            sandboxEscape :=
              ((system.blocks.memory thread.tcb).sandboxEscape + 1) % 2 ^ 64 })
  | leave
      {index : Nat} {thread : Thread}
      (running : system.threads index = some thread)
      (counted : thread.stage = .counted)
      (unlocked : system.holder ≠ some index)
      (mapped : thread.tcb ∈ system.blocks.mapped) :
      Step system (.leave index)
        ((system.setThread index { thread with stage := .sandbox }).setFields
          thread.tcb { system.blocks.memory thread.tcb with
            insyscall := false })
  | exit
      {index : Nat} {thread : Thread}
      (running : system.threads index = some thread)
      (ready : thread.inflight = none) (freed : thread.freed = true) :
      Step system (.exit index)
        (system.setThread index { thread with stage := .exited })
  | allocate
      {index user addr : Nat} {thread : Thread} {blocks : ThreadBlocks}
      (running : system.threads index = some thread)
      (counted : thread.stage = .counted) (unlocked : system.holder = none)
      (fresh : addr ∉ system.blocks.mapped)
      (unused : ∀ node ∈ system.blocks.tcbList, node.remove = false →
        node.tcbInsideSandbox ≠ user)
      (returned : allocsetTcb user addr system.blocks = .ok blocks) :
      Step system (.allocate index user addr)
        { system with
          blocks := blocks
          pending := ⟨addr, user, false⟩ :: system.pending }
  | start
      {index : Nat} {block : TcbNode}
      (waiting : block ∈ system.pending)
      (unused : system.threads index = none) :
      Step system (.start index block)
        { system.setThread index
            ⟨block.self, block.tcbInsideSandbox, .sandbox, false, none⟩ with
          pending := system.pending.erase block }
  | abort
      {index : Nat} {block : TcbNode} {thread : Thread} {blocks : ThreadBlocks}
      (running : system.threads index = some thread)
      (counted : thread.stage = .counted) (unlocked : system.holder = none)
      (waiting : block ∈ system.pending)
      (returned : freeTcb block.tcbInsideSandbox system.blocks = .ok blocks) :
      Step system (.abort index block)
        { system with
          blocks := blocks
          pending := system.pending.erase block }
  | free
      {index : Nat} {thread : Thread} {blocks : ThreadBlocks}
      (running : system.threads index = some thread)
      (counted : thread.stage = .counted) (unlocked : system.holder = none)
      (alive : thread.freed = false)
      (returned : freeTcb thread.user system.blocks = .ok blocks) :
      Step system (.free index)
        { system.setThread index { thread with freed := true } with
          blocks := blocks }
  | update
      {index : Nat} {thread : Thread}
      (running : system.threads index = some thread)
      (counted : thread.stage = .counted) (unlocked : system.holder = none) :
      Step system (.update index)
        { system with
          updater := .scanning system.blocks.tcbList
          holder := some index }
  | lookedAll
      (scanning : system.updater = .scanning []) :
      Step system .look { system with updater := .answered true }
  | lookRemoved
      {tcb : TcbNode} {todo : List TcbNode}
      (scanning : system.updater = .scanning (tcb :: todo))
      (removed : tcb.remove = true) :
      Step system .look { system with updater := .scanning todo }
  | lookAt
      {tcb : TcbNode} {todo : List TcbNode}
      (scanning : system.updater = .scanning (tcb :: todo))
      (kept : tcb.remove = false) :
      Step system .look
        { system with
          updater := .sampled tcb
            (system.blocks.memory tcb.self).sandboxEscape todo }
  | compareStayed
      {tcb : TcbNode} {thescs : Nat} {todo : List TcbNode}
      (sampled : system.updater = .sampled tcb thescs todo)
      (outside : (system.blocks.memory tcb.self).insyscall = false)
      (same : dictFind system.blocks.threadEscapeMap tcb.self = some thescs) :
      Step system .compare { system with updater := .answered false }
  | compareEscaped
      {tcb : TcbNode} {thescs recorded : Nat} {todo : List TcbNode}
      (sampled : system.updater = .sampled tcb thescs todo)
      (found : dictFind system.blocks.threadEscapeMap tcb.self = some recorded)
      (escaped : (system.blocks.memory tcb.self).insyscall = true ∨
        thescs ≠ recorded) :
      Step system .compare { system with updater := .scanning todo }
  | again
      (answered : system.updater = .answered false) :
      Step system .again
        { system with updater := .scanning system.blocks.tcbList }
  | complete
      {safe : Bool} (answered : system.updater = .answered safe) :
      Step system .complete
        { system with
          updates := system.updates + 1
          updater := .recording system.blocks.tcbList }
  | recordRemoved
      {tcb : TcbNode} {todo : List TcbNode}
      (recording : system.updater = .recording (tcb :: todo))
      (removed : tcb.remove = true) :
      Step system .record { system with updater := .recording todo }
  | recordAt
      {tcb : TcbNode} {todo : List TcbNode}
      (recording : system.updater = .recording (tcb :: todo))
      (kept : tcb.remove = false)
      (found : tcb.self ∈ system.blocks.threadEscapeMap) :
      Step system .record
        { system with
          blocks := { system.blocks with
            threadEscapeMap := system.blocks.threadEscapeMap.modify tcb.self
              fun _ => (system.blocks.memory tcb.self).sandboxEscape }
          updater := .recording todo }
  | recordedAll
      (recording : system.updater = .recording []) :
      Step system .record
        { system with
          updater := .idle
          holder := none }

/-- The states that admitted steps reach. -/
def SystemRun (admits : System → Event → Prop) (begin : System) :
    System → Prop :=
  Relation.ReflTransGen
    (fun before after => ∃ event, admits before event ∧
      Step before event after) begin

namespace SystemRun

variable {admits allows : System → Event → Prop} {begin before after : System}

theorem refl : SystemRun admits begin begin :=
  Relation.ReflTransGen.refl

/-- A run goes on with an admitted step. -/
theorem step {event : Event} (run : SystemRun admits begin before)
    (step : Step before event after) (admitted : admits before event) :
    SystemRun admits begin after :=
  run.tail ⟨event, admitted, step⟩

/-- A run goes on with a run. -/
theorem trans (first : SystemRun admits begin before)
    (next : SystemRun admits before after) : SystemRun admits begin after :=
  Relation.ReflTransGen.trans first next

/-- A run is one of every rule that admits its steps. -/
theorem mono (run : SystemRun admits begin after)
    (weaker : ∀ system event, admits system event → allows system event) :
    SystemRun allows begin after := by
  induction run with
  | refl => exact refl
  | tail _ last inductionHypothesis =>
      obtain ⟨event, admitted, last⟩ := last
      exact inductionHypothesis.step last (weaker _ event admitted)

end SystemRun

end Model

section Specs

variable {blocks result : ThreadBlocks} {user addr : Nat}

/-- What a returned `allocset_tcb` has done. -/
theorem allocsetTcb_ok
    (returned : allocsetTcb user addr blocks = .ok result) :
    addr ∉ blocks.threadEscapeMap ∧
      result = {
        tcbList := ⟨addr, user, false⟩ :: blocks.tcbList
        threadEscapeMap := blocks.threadEscapeMap.insertNew addr 0
        mapped := addr :: blocks.mapped
        memory := Function.update blocks.memory addr ⟨0, false⟩ } := by
  unfold allocsetTcb at returned
  split at returned
  next => cases returned
  next =>
    rw [bind_eq_ok] at returned
    obtain ⟨map, added, same⟩ := returned
    obtain ⟨fresh, rfl⟩ := dictAdd_eq_ok.mp added
    rw [pure_eq_ok] at same
    exact ⟨fresh, same.symm⟩

/-- The nodes that are not marked. -/
def ThreadBlocks.unmarked (blocks : ThreadBlocks) : List TcbNode :=
  blocks.tcbList.filter fun node => !node.remove

theorem ThreadBlocks.mem_unmarked {node : TcbNode} :
    node ∈ blocks.unmarked ↔ node ∈ blocks.tcbList ∧ node.remove = false := by
  simp [ThreadBlocks.unmarked]

/-- The loop behind the head keeps what is not marked. -/
theorem removeTcbMarked_behind (nodes : List TcbNode) :
    removeTcbMarked.behind nodes = nodes.filter fun node => !node.remove := by
  induction nodes with
  | nil => rfl
  | cons head rest inductionHypothesis =>
      rw [removeTcbMarked.behind, inductionHypothesis]
      cases marked : head.remove <;> simp [marked]

/-- What a returned `remove_tcb_marked` has done. -/
theorem removeTcbMarked_ok
    (returned : removeTcbMarked blocks = .ok result) :
    result = { blocks with
      tcbList := blocks.unmarked
      mapped := blocks.mapped.filter fun addr =>
        !blocks.tcbList.any fun node => node.remove && node.self == addr } := by
  unfold removeTcbMarked at returned
  split at returned
  next => cases returned
  next head rest listIs =>
    cases returned
    congr 1
    rw [ThreadBlocks.unmarked, listIs, removeTcbMarked_behind]
    cases marked : head.remove <;> simp [marked]

/-- Mark the node at an address. -/
def TcbNode.markAt (victim : Option Nat) (node : TcbNode) : TcbNode :=
  if victim = some node.self then { node with remove := true } else node

@[simp] theorem TcbNode.markAt_self (victim : Option Nat) (node : TcbNode) :
    (node.markAt victim).self = node.self := by
  unfold TcbNode.markAt
  split <;> rfl

@[simp] theorem TcbNode.markAt_inside (victim : Option Nat) (node : TcbNode) :
    (node.markAt victim).tcbInsideSandbox = node.tcbInsideSandbox := by
  unfold TcbNode.markAt
  split <;> rfl

theorem TcbNode.markAt_remove (victim : Option Nat) (node : TcbNode) :
    (node.markAt victim).remove = false ↔
      node.remove = false ∧ victim ≠ some node.self := by
  unfold TcbNode.markAt
  split
  next marked => simp [marked]
  next kept => simp [kept]

/-- What marking does: the first node with the descriptor, if there is one. -/
structure Marks (user : Nat) (nodes : List TcbNode) (map : OrdDict Nat Nat)
    (victim : Option Nat) : Prop where
  marked : markTcb user map nodes =
    (nodes.map (TcbNode.markAt victim),
      match victim with
      | none => map
      | some addr => dictDel map addr)
  absent : victim = none → ∀ node ∈ nodes, node.tcbInsideSandbox ≠ user
  present : ∀ addr, victim = some addr →
    ∃ node ∈ nodes, node.self = addr ∧ node.tcbInsideSandbox = user

theorem exists_marks
    {nodes : List TcbNode} (map : OrdDict Nat Nat)
    (distinct : (nodes.map TcbNode.self).Nodup) :
    ∃ victim, Marks user nodes map victim := by
  induction nodes with
  | nil =>
      exact ⟨none, rfl, (fun _ _ never => nomatch never), fun _ never =>
        nomatch never⟩
  | cons head rest inductionHypothesis =>
      obtain ⟨notInRest, restDistinct⟩ := List.nodup_cons.mp distinct
      by_cases own : head.tcbInsideSandbox = user
      · refine ⟨some head.self, ?_, (fun never => nomatch never), ?_⟩
        · have others : rest.map (TcbNode.markAt (some head.self)) = rest := by
            refine (List.map_congr_left fun node listed => ?_).trans
              (List.map_id rest)
            have apart : head.self ≠ node.self := by
              intro same
              exact notInRest (same ▸ List.mem_map_of_mem listed)
            simp [TcbNode.markAt, apart]
          rw [markTcb, if_pos own, List.map_cons, others]
          simp [TcbNode.markAt]
        · rintro addr same
          exact ⟨head, List.mem_cons_self, Option.some.inj same, own⟩
      · obtain ⟨victim, marked, absent, present⟩ := inductionHypothesis restDistinct
        have headKept : head.markAt victim = head := by
          unfold TcbNode.markAt
          split
          next same =>
            obtain ⟨node, listed, here, _⟩ := present _ same
            exact absurd (here ▸ List.mem_map_of_mem listed) notInRest
          next => rfl
        refine ⟨victim, ?_, fun nobody => ?_, fun addr same => ?_⟩
        · rw [markTcb, if_neg own, marked, List.map_cons, headKept]
        · rintro node listed
          rcases List.mem_cons.mp listed with rfl | inRest
          · exact own
          · exact absent nobody node inRest
        · obtain ⟨node, listed, found⟩ := present addr same
          exact ⟨node, List.mem_cons_of_mem _ listed, found⟩

/-- What a returned `free_tcb` has done. -/
structure FreedTcb (user : Nat) (blocks result : ThreadBlocks)
    (victim : Option Nat) : Prop where
  listIs : result.tcbList = blocks.unmarked.map (TcbNode.markAt victim)
  keys : ∀ addr, addr ∈ result.threadEscapeMap ↔
    addr ∈ blocks.threadEscapeMap ∧ victim ≠ some addr
  lookup : ∀ addr, victim ≠ some addr →
    result.threadEscapeMap.find addr = blocks.threadEscapeMap.find addr
  mapped : ∀ addr, addr ∈ result.mapped ↔ addr ∈ blocks.mapped ∧
    ∀ node ∈ blocks.tcbList, node.remove = true → node.self ≠ addr
  memoryIs : result.memory = blocks.memory
  absent : victim = none →
    ∀ node ∈ blocks.unmarked, node.tcbInsideSandbox ≠ user
  present : ∀ addr, victim = some addr →
    ∃ node ∈ blocks.unmarked, node.self = addr ∧ node.tcbInsideSandbox = user

theorem freeTcb_ok
    (distinct : (blocks.tcbList.map TcbNode.self).Nodup)
    (returned : freeTcb user blocks = .ok result) :
    ∃ victim, FreedTcb user blocks result victim := by
  unfold freeTcb at returned
  rw [bind_eq_ok] at returned
  obtain ⟨kept, removed, returned⟩ := returned
  rw [removeTcbMarked_ok removed] at returned
  split at returned
  next => cases returned
  next =>
    split at returned
    next => cases returned
    next =>
      have keptDistinct : (blocks.unmarked.map TcbNode.self).Nodup :=
        distinct.sublist (List.filter_sublist.map _)
      obtain ⟨victim, marks⟩ := @exists_marks user _ blocks.threadEscapeMap
        keptDistinct
      rw [marks.marked] at returned
      rw [pure_eq_ok] at returned
      subst returned
      refine ⟨victim, rfl, ?_, ?_, ?_, rfl, marks.absent, marks.present⟩
      · intro addr
        cases victim with
        | none => simp
        | some own => simp [dictDel, eq_comm]
      · intro addr apart
        cases victim with
        | none => rfl
        | some own =>
            simp only [ne_eq, Option.some.injEq] at apart
            simp [dictDel, OrdDict.find_erase, Ne.symm apart]
      · intro addr
        simp

end Specs

/-- The thread that has changed, or another one. -/
theorem System.setThread_cases
    {system : System} {index other : Nat} {thread otherThread : Thread}
    (found : (system.setThread index thread).threads other =
      some otherThread) :
    (other = index ∧ otherThread = thread) ∨
      (other ≠ index ∧ system.threads other = some otherThread) := by
  change Function.update system.threads index (some thread) other =
    some otherThread at found
  by_cases same : other = index
  · subst same
    rw [Function.update_self] at found
    exact Or.inl ⟨rfl, (Option.some.inj found).symm⟩
  · rw [Function.update_of_ne same] at found
    exact Or.inr ⟨same, found⟩

/-- The main thread is the only one at first. -/
theorem System.boot_thread
    {tcb user escapes index : Nat} {thread : Thread}
    (found : (System.boot tcb user escapes).threads index = some thread) :
    index = 0 ∧ thread = ⟨tcb, user, .counted, false, none⟩ := by
  change Function.update (fun _ => none) 0 _ index = some thread at found
  by_cases main : index = 0
  · subst main
    rw [Function.update_self] at found
    exact ⟨rfl, (Option.some.inj found).symm⟩
  · rw [Function.update_of_ne main] at found
    cases found

section Kept

/--
The blocks are distinct and mapped, and `thread_escape_map` holds those that are
not marked.
-/
structure ThreadBlocks.Kept (blocks : ThreadBlocks) : Prop where
  distinct : (blocks.tcbList.map TcbNode.self).Nodup
  mapped : ∀ node ∈ blocks.tcbList, node.self ∈ blocks.mapped
  keys : ∀ addr, addr ∈ blocks.threadEscapeMap ↔
    ∃ node ∈ blocks.unmarked, node.self = addr

namespace ThreadBlocks.Kept

variable {blocks result : ThreadBlocks} {user addr : Nat}

/-- Nodes at one address are one node. -/
theorem node_unique (kept : blocks.Kept) {first second : TcbNode}
    (firstListed : first ∈ blocks.tcbList)
    (secondListed : second ∈ blocks.tcbList)
    (same : first.self = second.self) : first = second :=
  List.inj_on_of_nodup_map kept.distinct firstListed secondListed same

/-- `allocset_tcb` adds a block that is mapped anew. -/
theorem allocate (kept : blocks.Kept) (fresh : addr ∉ blocks.mapped)
    (returned : allocsetTcb user addr blocks = .ok result) : result.Kept := by
  obtain ⟨_, rfl⟩ := allocsetTcb_ok returned
  refine ⟨?_, ?_, fun query => ?_⟩
  · refine List.nodup_cons.mpr ⟨fun listed => ?_, kept.distinct⟩
    obtain ⟨node, member, here⟩ := List.mem_map.mp listed
    have there : node.self = addr := here
    exact fresh (there ▸ kept.mapped node member)
  · intro node listed
    rcases List.mem_cons.mp listed with rfl | old
    · exact List.mem_cons_self
    · exact List.mem_cons_of_mem _ (kept.mapped node old)
  · rw [OrdDict.mem_insertNew, kept.keys]
    change _ ↔ ∃ node ∈ (⟨addr, user, false⟩ :: blocks.unmarked : List TcbNode),
      node.self = query
    rw [List.exists_mem_cons_iff, eq_comm]

/-- `allocset_tcb` finds its key absent. -/
theorem allocate_returns (kept : blocks.Kept) (fresh : addr ∉ blocks.mapped)
    (inside : user ≤ fourGB) :
    ∃ result, allocsetTcb user addr blocks = .ok result := by
  have absent : addr ∉ blocks.threadEscapeMap := by
    rw [kept.keys]
    rintro ⟨node, listed, here⟩
    exact fresh (here ▸ kept.mapped node (mem_unmarked.mp listed).1)
  rw [allocsetTcb, if_neg (not_lt.mpr inside),
    dictAdd_eq_ok.mpr ⟨absent, rfl⟩]
  exact ⟨_, rfl⟩

/-- `free_tcb` unmaps what is marked, and marks one block more. -/
theorem free (kept : blocks.Kept) {victim : Option Nat}
    (freed : FreedTcb user blocks result victim) : result.Kept := by
  have distinct : (blocks.unmarked.map TcbNode.self).Nodup :=
    kept.distinct.sublist (List.filter_sublist.map _)
  have selves : result.tcbList.map TcbNode.self =
      blocks.unmarked.map TcbNode.self := by
    rw [freed.listIs, List.map_map]
    exact List.map_congr_left fun node _ => node.markAt_self victim
  refine ⟨selves ▸ distinct, fun node listed => ?_, fun addr => ?_⟩
  · rw [freed.listIs] at listed
    obtain ⟨old, oldListed, rfl⟩ := List.mem_map.mp listed
    obtain ⟨inList, notMarked⟩ := mem_unmarked.mp oldListed
    rw [TcbNode.markAt_self, freed.mapped]
    refine ⟨kept.mapped old inList, fun other otherListed marked same => ?_⟩
    rw [kept.node_unique otherListed inList same, notMarked] at marked
    cases marked
  · rw [freed.keys, kept.keys]
    constructor
    · rintro ⟨⟨node, listed, rfl⟩, spared⟩
      refine ⟨node.markAt victim, mem_unmarked.mpr ⟨?_, ?_⟩,
        node.markAt_self victim⟩
      · rw [freed.listIs]
        exact List.mem_map_of_mem listed
      · exact (node.markAt_remove victim).mpr
          ⟨(mem_unmarked.mp listed).2, spared⟩
    · rintro ⟨node, listed, rfl⟩
      obtain ⟨inList, notMarked⟩ := mem_unmarked.mp listed
      rw [freed.listIs] at inList
      obtain ⟨old, oldListed, rfl⟩ := List.mem_map.mp inList
      rw [TcbNode.markAt_self]
      exact ⟨⟨old, oldListed, rfl⟩, ((old.markAt_remove victim).mp notMarked).2⟩

end ThreadBlocks.Kept

/-- The nodes that a loop of an update has yet to visit. -/
def Updater.todo : Updater → List TcbNode
  | idle => []
  | scanning todo => todo
  | sampled tcb _ todo => tcb :: todo
  | answered _ => []
  | recording todo => todo

/-- What every step preserves: an update holds the lock while it walks the list. -/
structure System.Kept (system : System) : Prop where
  blocks : system.blocks.Kept
  walk : ∀ node ∈ system.updater.todo, node ∈ system.blocks.tcbList
  locked : system.holder = none → system.updater = .idle

/-- Every step keeps the list of blocks and the map in step. -/
theorem System.Kept.step {before after : System} {event : Event}
    (kept : before.Kept) (step : Step before event after) : after.Kept := by
  obtain ⟨blocks, walk, locked⟩ := kept
  have sameBlocks : ∀ {fields : Nat → TcbFields},
      ThreadBlocks.Kept { before.blocks with memory := fields } :=
    ⟨blocks.distinct, blocks.mapped, blocks.keys⟩
  cases step with
  | load => exact ⟨blocks, walk, locked⟩
  | finish => exact ⟨blocks, walk, locked⟩
  | enter => exact ⟨sameBlocks, walk, locked⟩
  | count => exact ⟨sameBlocks, walk, locked⟩
  | leave => exact ⟨sameBlocks, walk, locked⟩
  | exit => exact ⟨blocks, walk, locked⟩
  | allocate running counted unlocked fresh unused returned =>
      refine ⟨blocks.allocate fresh returned, ?_, locked⟩
      rw [locked unlocked]
      exact fun _ never => nomatch never
  | start => exact ⟨blocks, walk, locked⟩
  | abort running counted unlocked waiting returned =>
      obtain ⟨victim, freed⟩ := freeTcb_ok blocks.distinct returned
      refine ⟨blocks.free freed, ?_, locked⟩
      rw [locked unlocked]
      exact fun _ never => nomatch never
  | free running counted unlocked alive returned =>
      obtain ⟨victim, freed⟩ := freeTcb_ok blocks.distinct returned
      refine ⟨blocks.free freed, ?_, locked⟩
      change ∀ node ∈ before.updater.todo, _
      rw [locked unlocked]
      exact fun _ never => nomatch never
  | update => exact ⟨blocks, fun _ listed => listed, fun never => nomatch never⟩
  | lookedAll scanning =>
      refine ⟨blocks, fun _ never => (nomatch never), fun unlocked => ?_⟩
      rw [locked unlocked] at scanning
      cases scanning
  | lookRemoved scanning removed =>
      refine ⟨blocks, fun node listed => walk node ?_, fun unlocked => ?_⟩
      · rw [scanning]
        exact List.mem_cons_of_mem _ listed
      · rw [locked unlocked] at scanning
        cases scanning
  | lookAt scanning keptNode =>
      refine ⟨blocks, fun node listed => walk node ?_, fun unlocked => ?_⟩
      · rw [scanning]
        exact listed
      · rw [locked unlocked] at scanning
        cases scanning
  | compareStayed sampled outside same =>
      refine ⟨blocks, fun _ never => (nomatch never), fun unlocked => ?_⟩
      rw [locked unlocked] at sampled
      cases sampled
  | compareEscaped sampled found escaped =>
      refine ⟨blocks, fun node listed => walk node ?_, fun unlocked => ?_⟩
      · rw [sampled]
        exact List.mem_cons_of_mem _ listed
      · rw [locked unlocked] at sampled
        cases sampled
  | again answered =>
      refine ⟨blocks, fun _ listed => listed, fun unlocked => ?_⟩
      rw [locked unlocked] at answered
      cases answered
  | complete answered =>
      refine ⟨blocks, fun _ listed => listed, fun unlocked => ?_⟩
      rw [locked unlocked] at answered
      cases answered
  | recordRemoved recording removed =>
      refine ⟨blocks, fun node listed => walk node ?_, fun unlocked => ?_⟩
      · rw [recording]
        exact List.mem_cons_of_mem _ listed
      · rw [locked unlocked] at recording
        cases recording
  | recordAt recording keptNode found =>
      refine ⟨⟨blocks.distinct, blocks.mapped, fun addr => ?_⟩,
        fun node listed => walk node ?_, fun unlocked => ?_⟩
      · exact OrdDict.mem_modify.trans (blocks.keys addr)
      · rw [recording]
        exact List.mem_cons_of_mem _ listed
      · rw [locked unlocked] at recording
        cases recording
  | recordedAll recording =>
      exact ⟨blocks, (fun _ never => nomatch never), fun _ => rfl⟩

/-- In every run the list of blocks and the map are in step. -/
theorem System.Kept.run {admits : System → Event → Prop} {state : System}
    {tcb user escapes : Nat}
    (run : SystemRun admits (.boot tcb user escapes) state) : state.Kept := by
  induction run with
  | refl =>
      refine ⟨⟨List.nodup_singleton _, ?_, ?_⟩, (fun _ never => nomatch never),
        fun _ => rfl⟩
      · intro node listed
        rw [List.mem_singleton.mp listed]
        exact List.mem_singleton_self _
      · intro addr
        simp [System.boot, ThreadBlocks.unmarked, eq_comm]
  | tail _ step inductionHypothesis =>
      obtain ⟨_, _, step⟩ := step
      exact inductionHypothesis.step step

end Kept

end Mcfi
