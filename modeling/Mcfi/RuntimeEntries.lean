import Mcfi.Lib.LockedSections
import Mcfi.Lib.X86Frames
import Mcfi.PatchTraps

namespace Mcfi

open X86

/-!
# Entering and leaving the sandbox

A thread leaves the sandbox through an entry of the runtime or for a system call.  The
entries raise `IN_SYSCALL`, count the escape, take the lock, call a C function on the
stack of the runtime, give the lock back and restore the stack pointer.  Threads take
these instructions one at a time in any order.
-/

section Code

/-- The functions that `runtime_interface.S` gives an entry. -/
inductive RuntimeFunction where
  | patchCall
  | patchEntry
  | rockMmap
  | rockMprotect
  | rockMunmap
  | rockMremap
  | rockBrk
  | rockClone
  | rockExecve
  | rockShmat
  | setTcb
  | allocsetTcb
  | freeTcb
  | loadNativeCode
  | genCfg
  | unloadNativeCode
  | createCodeHeap
  | codeHeapFill
  | dyncodeModify
  | dyncodeDelete
  | reportCfiViolation
  | takeAddrAndGenCfg
  | setGotplt
  | rockFork
  | collectStat
  | regCfgMetadata
  | deleteCode
  | moveCode
  | patchAt
  deriving DecidableEq, Repr

/-- `atomic_incr_thread_escapes`. -/
def atomicIncrThreadEscapes (scratchreg : Reg) : List Instr := [
  .load64 scratchreg (atFs tcbThreadEscapes),
  .add64 scratchreg 1,
  .store64 (atFs tcbThreadEscapes) scratchreg]

/-- `switch_runtime_stack`. -/
def switchRuntimeStack : List Instr := [
  .load64 .rsp (atFs tcbSelf),
  .add64 .rsp 0xffc0]

/-- `save_context`. -/
def saveContext : List Instr := [.store64 (atFs (tcbUserCtx + 0x38)) .rsp]

/-- `restore_context`. -/
def restoreContext : List Instr := [.load64 .rsp (atFs (tcbUserCtx + 0x38))]

/-- `runtime_function`, up to `spin_lock`. -/
def runtimeFunctionEnter : List Instr :=
  .storeImm8 (atFs tcbInSyscall) 1 ::
    (saveContext ++ atomicIncrThreadEscapes .rax ++ switchRuntimeStack)

/-- `runtime_function`, behind `spin_unlock`, up to the jump to the continuation. -/
def runtimeFunctionLeave : List Instr :=
  restoreContext ++ [.storeImm8 (atFs tcbInSyscall) 0]

/-- `__syscall_enter`. -/
def syscallEnter : List Instr := [.storeImm8 (atFs tcbInSyscall) 1]

/-- What is behind the `syscall` instruction, and `__syscall_exit`. -/
def syscallLeave : List Instr :=
  atomicIncrThreadEscapes .r11 ++ [.storeImm8 (atFs tcbInSyscall) 0]

/-- How a thread leaves the sandbox. -/
inductive Escape where
  | function (func : RuntimeFunction)
  | syscall
  deriving DecidableEq, Repr

/-- The instructions before the lock or the `syscall` instruction. -/
def Escape.enter : Escape → List Instr
  | .function .patchCall => onlinePatchEnter
  | .function .patchEntry => onlinePatchEnter
  | .function _ => runtimeFunctionEnter
  | .syscall => syscallEnter

/-- The instructions behind the lock or the `syscall` instruction. -/
def Escape.leave : Escape → List Instr
  | .function .patchCall => onlinePatchLeave
  | .function .patchEntry => onlinePatchLeave
  | .function _ => runtimeFunctionLeave
  | .syscall => syscallLeave

/-- `lock xchgb %r11b, locked`. -/
def exchangeLocked (locked : Nat) (m : Machine) : Machine :=
  (Instr.movImm8 .r11 (m.mem locked).toBitVec).exec
    (m.store locked 1 (m.low8 .r11).toNat)

/-- `testb %r11b, %r11b`. -/
def testLocked (m : Machine) : Machine :=
  { m with zf := m.low8 .r11 &&& m.low8 .r11 == 0 }

end Code

section States

/-- The instructions of `spin_lock`: `movb`, `xchgb`, `testb` and `jnz`. -/
inductive LockStage where
  | set
  | exchange
  | test
  | branch
  deriving DecidableEq

/--
Where a thread is: the instruction that it executes next.  `entered` is its machine when
it left the sandbox, and `called` when it entered the C function, which no step reads.
-/
inductive EntryPlace where
  | sandbox
  | entering (escape : Escape) (entered : Machine) (pc : Nat)
  | locking (func : RuntimeFunction) (entered : Machine) (stage : LockStage)
  | calling (func : RuntimeFunction) (entered : Machine)
  | running (func : RuntimeFunction) (entered called : Machine)
  | unlocking (func : RuntimeFunction) (entered : Machine) (cleared : Bool)
  | trapping (entered : Machine)
  | leaving (escape : Escape) (entered : Machine) (pc : Nat)
  | resuming (func : RuntimeFunction) (entered : Machine)

/-- A thread: its registers, and where it is. -/
structure EntryThread where
  core : Core
  place : EntryPlace

/-- The base of its control block. -/
def EntryThread.tcb (thread : EntryThread) : Nat :=
  (thread.core.segmentBase .fs).toNat

/-- The threads and the memory that they share. -/
structure EntrySystem where
  mem : ByteMem
  threads : Nat → Option EntryThread

namespace EntrySystem

variable (system : EntrySystem)

/-- The machine of a thread. -/
def machine (thread : EntryThread) : Machine :=
  thread.core.on system.mem

/-- A thread has taken its machine somewhere. -/
def put (index : Nat) (m : Machine) (place : EntryPlace) : EntrySystem where
  mem := m.mem
  threads := Function.update system.threads index (some ⟨m.core, place⟩)

end EntrySystem

/-- Where a thread goes on in its entry: the lock or the `syscall` instruction comes last. -/
def Escape.afterEnter (escape : Escape) (entered : Machine) (pc : Nat) : EntryPlace :=
  if pc < escape.enter.length then .entering escape entered pc
  else
    match escape with
    | .function func => .locking func entered .set
    | .syscall => .trapping entered

/-- Where it goes on behind the lock or the `syscall` instruction. -/
def Escape.afterLeave (escape : Escape) (entered : Machine) (pc : Nat) : EntryPlace :=
  if pc < escape.leave.length then .leaving escape entered pc
  else
    match escape with
    | .function func => .resuming func entered
    | .syscall => .sandbox

end States

section Steps

/-- The words of a control block that the entries use. -/
def InHeader (tcb query : Nat) : Prop :=
  tcb + 0x8 ≤ query ∧ query < tcb + 0x100

/-- The stack of the runtime, behind a control block and its guard page. -/
def OnStack (tcb query : Nat) : Prop :=
  tcb + 0x2000 ≤ query ∧ query < tcb + 0x10000

/--
The compiled C functions of the runtime: the steps that one takes, and where it returns
to its entry.  They follow the calling convention and leave `fs` alone.
-/
structure CCode where
  step : RuntimeFunction → Machine → Machine → Prop
  returns : RuntimeFunction → Machine → Machine → Prop
  segmentBase : ∀ func m after, step func m after → after.segmentBase = m.segmentBase
  stack : ∀ func called m, returns func called m → m.regs .rsp = called.regs .rsp + 8
  calleeSaved : ∀ func called m, returns func called m →
    ∀ reg ∈ calleeSaved, m.regs reg = called.regs reg

/--
The layout: where the lock is, and a part of the runtime's memory outside of the sandbox
that never becomes a control block.
-/
structure EntryLayout where
  locked : Nat
  data : Nat → Prop
  outside : ∀ query, data query → 2 ^ 32 ≤ query
  notLocked : ¬ data locked
  lockedOutside : 2 ^ 32 ≤ locked

/-- A control block is above the sandbox, away from the lock and the data. -/
structure EntryLayout.Block (layout : EntryLayout) (tcb : Nat) : Prop where
  low : 2 ^ 32 ≤ tcb
  high : tcb + 0x10000 < 2 ^ 64
  locked : layout.locked < tcb ∨ tcb + 0x10000 ≤ layout.locked
  data : ∀ query, InHeader tcb query ∨ OnStack tcb query → ¬ layout.data query

/-- Two control blocks with their stacks are apart. -/
def BlocksApart (first second : Nat) : Prop :=
  first + 0x10000 ≤ second ∨ second + 0x10000 ≤ first

/--
What a C function may write: neither the lock, nor the used words of the control block of
a thread, nor the stack of another one.
-/
def EntrySystem.MayWrite (system : EntrySystem) (layout : EntryLayout) (index query : Nat) :
    Prop :=
  query ≠ layout.locked ∧ ∀ other thread, system.threads other = some thread →
    ¬ InHeader thread.tcb query ∧ (other ≠ index → ¬ OnStack thread.tcb query)

/--
The steps of the threads.  A thread starts with a block that is not in use, and ends in a
system call.  In the sandbox it changes its registers, the memory of the sandbox, and the two
words of its block that the stubs write; the kernel changes the memory of the sandbox.
-/
inductive EntryStep (code : CCode) (layout : EntryLayout) (system : EntrySystem) (index : Nat) :
    EntrySystem → Prop where
  | start
      {core : Core} (unused : system.threads index = none)
      (block : layout.Block (core.segmentBase .fs).toNat)
      (apart : ∀ other thread, system.threads other = some thread →
        BlocksApart (core.segmentBase .fs).toNat thread.tcb)
      (self : system.mem.load ((core.segmentBase .fs).toNat + tcbSelf) 8 =
        (core.segmentBase .fs).toNat)
      (flag : system.mem ((core.segmentBase .fs).toNat + tcbInSyscall) = 0) :
      EntryStep code layout system index
        (system.put index (core.on system.mem) .sandbox)
  | exit
      {thread : EntryThread} (isThread : system.threads index = some thread)
      (place : thread.place = .sandbox ∨ ∃ entered, thread.place = .trapping entered) :
      EntryStep code layout system index
        { system with threads := Function.update system.threads index none }
  | inside
      {thread : EntryThread} {after : Machine}
      (isThread : system.threads index = some thread) (place : thread.place = .sandbox)
      (base : after.segmentBase = thread.core.segmentBase)
      (writes : ∀ query, 2 ^ 32 ≤ query →
        (query < thread.tcb + tcbContinuation ∨ thread.tcb + tcbContinuation + 8 ≤ query) →
        (query < thread.tcb + 0x88 ∨ thread.tcb + 0x88 + 8 ≤ query) →
        after.mem query = system.mem query) :
      EntryStep code layout system index (system.put index after .sandbox)
  | escape
      {thread : EntryThread} (isThread : system.threads index = some thread)
      (place : thread.place = .sandbox) (escape : Escape) :
      EntryStep code layout system index
        (system.put index (system.machine thread)
          (.entering escape (system.machine thread) 0))
  | enter
      {thread : EntryThread} {escape : Escape} {entered : Machine} {pc : Nat} {instr : Instr}
      (isThread : system.threads index = some thread)
      (place : thread.place = .entering escape entered pc)
      (fetched : escape.enter[pc]? = some instr) :
      EntryStep code layout system index
        (system.put index (instr.exec (system.machine thread))
          (escape.afterEnter entered (pc + 1)))
  | lockSet
      {thread : EntryThread} {func : RuntimeFunction} {entered : Machine}
      (isThread : system.threads index = some thread)
      (place : thread.place = .locking func entered .set) :
      EntryStep code layout system index
        (system.put index ((Instr.movImm8 .r11 1).exec (system.machine thread))
          (.locking func entered .exchange))
  | lockExchange
      {thread : EntryThread} {func : RuntimeFunction} {entered : Machine}
      (isThread : system.threads index = some thread)
      (place : thread.place = .locking func entered .exchange) :
      EntryStep code layout system index
        (system.put index (exchangeLocked layout.locked (system.machine thread))
          (.locking func entered .test))
  | lockTest
      {thread : EntryThread} {func : RuntimeFunction} {entered : Machine}
      (isThread : system.threads index = some thread)
      (place : thread.place = .locking func entered .test) :
      EntryStep code layout system index
        (system.put index (testLocked (system.machine thread))
          (.locking func entered .branch))
  | lockBranch
      {thread : EntryThread} {func : RuntimeFunction} {entered : Machine}
      (isThread : system.threads index = some thread)
      (place : thread.place = .locking func entered .branch) :
      EntryStep code layout system index
        (system.put index (system.machine thread)
          (if thread.core.zf then .calling func entered else .locking func entered .set))
  | call
      {thread : EntryThread} {func : RuntimeFunction} {entered : Machine}
      {returnAddress : Nat} (isThread : system.threads index = some thread)
      (place : thread.place = .calling func entered) :
      EntryStep code layout system index
        (system.put index (callTo returnAddress (system.machine thread))
          (.running func entered (callTo returnAddress (system.machine thread))))
  | function
      {thread : EntryThread} {func : RuntimeFunction} {entered called after : Machine}
      (isThread : system.threads index = some thread)
      (place : thread.place = .running func entered called)
      (stepped : code.step func (system.machine thread) after)
      (writes : ∀ query, ¬ system.MayWrite layout index query →
        after.mem query = system.mem query) :
      EntryStep code layout system index
        (system.put index after (.running func entered called))
  | functionReturns
      {thread : EntryThread} {func : RuntimeFunction} {entered called : Machine}
      (isThread : system.threads index = some thread)
      (place : thread.place = .running func entered called)
      (returned : code.returns func called (system.machine thread)) :
      EntryStep code layout system index
        (system.put index (system.machine thread) (.unlocking func entered false))
  | unlockSet
      {thread : EntryThread} {func : RuntimeFunction} {entered : Machine}
      (isThread : system.threads index = some thread)
      (place : thread.place = .unlocking func entered false) :
      EntryStep code layout system index
        (system.put index ((Instr.movImm8 .r11 0).exec (system.machine thread))
          (.unlocking func entered true))
  | unlockExchange
      {thread : EntryThread} {func : RuntimeFunction} {entered : Machine}
      (isThread : system.threads index = some thread)
      (place : thread.place = .unlocking func entered true) :
      EntryStep code layout system index
        (system.put index (exchangeLocked layout.locked (system.machine thread))
          (.leaving (.function func) entered 0))
  | kernel
      {thread : EntryThread} {entered after : Machine}
      (isThread : system.threads index = some thread)
      (place : thread.place = .trapping entered)
      (base : after.segmentBase = thread.core.segmentBase)
      (regs : ∀ reg, reg ≠ .rax → reg ≠ .rcx → reg ≠ .r11 →
        after.regs reg = thread.core.regs reg)
      (writes : ∀ query, 2 ^ 32 ≤ query → after.mem query = system.mem query) :
      EntryStep code layout system index
        (system.put index after (.leaving .syscall entered 0))
  | leave
      {thread : EntryThread} {escape : Escape} {entered : Machine} {pc : Nat} {instr : Instr}
      (isThread : system.threads index = some thread)
      (place : thread.place = .leaving escape entered pc)
      (fetched : escape.leave[pc]? = some instr) :
      EntryStep code layout system index
        (system.put index (instr.exec (system.machine thread))
          (escape.afterLeave entered (pc + 1)))
  | resume
      {thread : EntryThread} {func : RuntimeFunction} {entered : Machine}
      (isThread : system.threads index = some thread)
      (place : thread.place = .resuming func entered) :
      EntryStep code layout system index
        (system.put index (system.machine thread) .sandbox)

/-- The lock is free, and no thread has started. -/
structure EntrySystem.Booted (layout : EntryLayout) (system : EntrySystem) : Prop where
  free : system.mem layout.locked = 0
  threads : ∀ index, system.threads index = none

/-- The C function that is executed at a place. -/
def EntryPlace.function : EntryPlace → Option RuntimeFunction
  | .running func _ _ => some func
  | _ => none

/-- The C function that a thread executes. -/
def EntrySystem.runs (system : EntrySystem) (index : Nat) : Option RuntimeFunction :=
  (system.threads index).bind fun thread => thread.place.function

/-- Where a thread is and its machine, if there is such a thread. -/
def EntrySystem.view (system : EntrySystem) (index : Nat) : Option (EntryPlace × Machine) :=
  (system.threads index).map fun thread => (thread.place, system.machine thread)

/-- The data of the runtime. -/
def EntryLayout.shown (layout : EntryLayout) (mem : ByteMem) : {query // layout.data query} →
    UInt8 :=
  fun query => mem query

/-- The threads, with the execution of C functions as their sections. -/
def entrySections (code : CCode) (layout : EntryLayout) :
    SectionSystem EntrySystem Nat (Option (EntryPlace × Machine))
      ({query // layout.data query} → UInt8) RuntimeFunction where
  step := fun before index after => EntryStep code layout before index after
  inside := EntrySystem.runs
  view := EntrySystem.view
  data := fun system => layout.shown system.mem

/--
What other threads do to a machine meanwhile: they leave its registers, the data of the
runtime, its own control block and its own stack alone.
-/
structure Undisturbed (layout : EntryLayout) (m after : Machine) : Prop where
  core : after.core = m.core
  bytes : ∀ query, layout.data query ∨ InHeader m.fsBase query ∨ OnStack m.fsBase query →
    after.mem query = m.mem query

/-- An execution of a C function by one thread, while others leave its memory alone. -/
def CCode.Executes (code : CCode) (layout : EntryLayout) (func : RuntimeFunction) :
    Machine → Machine → Prop :=
  Relation.ReflTransGen fun m after => code.step func m after ∨ Undisturbed layout m after

end Steps

end Mcfi
