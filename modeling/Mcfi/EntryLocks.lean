import Mcfi.EntryStates

namespace Mcfi

open X86

/-!
# The lock of the runtime

Whatever the order of the instructions, the byte `locked` is set exactly while one thread
is between taking the lock and giving it back, and every thread's control block is as its
place in the entry says.
-/

section Invariant

/-- A thread holds the lock. -/
def EntryPlace.Locked (m : Machine) : EntryPlace → Prop
  | .locking _ _ .test => m.low8 .r11 = 0
  | .locking _ _ .branch => m.zf = true
  | .calling _ _ => True
  | .running _ _ _ => True
  | .unlocking _ _ _ => True
  | _ => False

/-- A thread of a system holds the lock. -/
def EntrySystem.Holder (system : EntrySystem) (index : Nat) : Prop :=
  ∃ thread, system.threads index = some thread ∧
    thread.place.Locked (system.machine thread)

/-- What every step keeps. -/
structure EntryInvariant (layout : EntryLayout) (system : EntrySystem) : Prop where
  safe : ∀ index thread, system.threads index = some thread →
    EntrySafe layout (system.machine thread) thread.place
  apart : ∀ first second one two, first ≠ second → system.threads first = some one →
    system.threads second = some two → BlocksApart one.tcb two.tcb
  byte : system.mem layout.locked = 0 ∨ system.mem layout.locked = 1
  held : system.mem layout.locked = 1 ↔ ∃ index, system.Holder index
  one : ∀ first second, system.Holder first → system.Holder second → first = second

/--
The memory that a thread changes outside of C functions: the sandbox, the lock, its own
control block and its own stack.
-/
def Untouched (layout : EntryLayout) (tcb : Nat) (mem after : ByteMem) : Prop :=
  ∀ query, 2 ^ 32 ≤ query → query ≠ layout.locked → ¬ InHeader tcb query →
    ¬ OnStack tcb query → after query = mem query

/-- What a step does to the lock. -/
inductive LockEffect (layout : EntryLayout) (before : EntrySystem) (index : Nat)
    (after : EntrySystem) : Prop where
  | kept (byte : after.mem layout.locked = before.mem layout.locked)
      (holder : after.Holder index ↔ before.Holder index)
  | taken (free : before.mem layout.locked = 0) (byte : after.mem layout.locked = 1)
      (holder : after.Holder index)
  | given (holder : before.Holder index) (byte : after.mem layout.locked = 0)
      (left : ¬ after.Holder index)

/-- What a step changes. -/
structure StepEffect (layout : EntryLayout) (before : EntrySystem) (index : Nat)
    (after : EntrySystem) : Prop where
  others : ∀ other, other ≠ index → after.threads other = before.threads other
  blocks : ∀ other thread, other ≠ index → before.threads other = some thread →
    ∀ query, InHeader thread.tcb query ∨ OnStack thread.tcb query →
      after.mem query = before.mem query
  own : ∀ thread, after.threads index = some thread →
    EntrySafe layout (after.machine thread) thread.place
  apart : ∀ thread, after.threads index = some thread → ∀ other two, other ≠ index →
    before.threads other = some two → BlocksApart thread.tcb two.tcb
  lock : LockEffect layout before index after

end Invariant

section Step

variable {code : CCode} {layout : EntryLayout} {before after system : EntrySystem}
  {index : Nat}

/-- Another thread holds the lock after a step if and only if it did before. -/
private theorem holder_other (effect : StepEffect layout before index after) {other : Nat}
    (different : other ≠ index) : after.Holder other ↔ before.Holder other := by
  unfold EntrySystem.Holder
  rw [effect.others other different]
  refine exists_congr fun thread => and_congr_right fun _ => ?_
  cases isPlace : thread.place with
  | locking func entered stage => cases stage <;> exact Iff.rfl
  | _ => exact Iff.rfl

/-- A step that has such effects keeps the invariant. -/
theorem StepEffect.preserved (invariant : EntryInvariant layout before)
    (effect : StepEffect layout before index after) : EntryInvariant layout after where
  safe := by
    intro other thread isThread
    by_cases same : other = index
    · rw [same] at isThread
      exact effect.own thread isThread
    · rw [effect.others other same] at isThread
      refine (invariant.safe other thread isThread).congr ⟨rfl, fun query above below => ?_⟩
      exact effect.blocks other thread same isThread query (.inl ⟨above, below⟩)
  apart := by
    intro first second one two different isOne isTwo
    by_cases isFirst : first = index
    · rw [isFirst] at isOne different
      rw [effect.others second different.symm] at isTwo
      exact effect.apart one isOne second two different.symm isTwo
    · rw [effect.others first isFirst] at isOne
      by_cases isSecond : second = index
      · rw [isSecond] at isTwo
        exact (effect.apart two isTwo first one isFirst isOne).symm
      · rw [effect.others second isSecond] at isTwo
        exact invariant.apart first second one two different isOne isTwo
  byte := by
    rcases effect.lock with ⟨byte, _⟩ | ⟨_, byte, _⟩ | ⟨_, byte, _⟩
    · rw [byte]
      exact invariant.byte
    · exact .inr byte
    · exact .inl byte
  held := by
    have zeroNotOne : ¬ (0 : UInt8) = 1 := by decide
    rcases effect.lock with ⟨byte, holder⟩ | ⟨free, byte, holder⟩ | ⟨holder, byte, left⟩
    · rw [byte, invariant.held]
      refine exists_congr fun other => ?_
      by_cases same : other = index
      · rw [same]
        exact holder.symm
      · exact (holder_other effect same).symm
    · exact ⟨fun _ => ⟨index, holder⟩, fun _ => byte⟩
    · constructor
      · intro isOne
        exact absurd (byte.symm.trans isOne) zeroNotOne
      · rintro ⟨other, isHolder⟩
        by_cases same : other = index
        · rw [same] at isHolder
          exact absurd isHolder left
        · have was := (holder_other effect same).mp isHolder
          exact absurd (invariant.one other index was holder) same
  one := by
    intro first second isFirst isSecond
    have zeroNotOne : ¬ (0 : UInt8) = 1 := by decide
    rcases effect.lock with ⟨_, holder⟩ | ⟨free, _, _⟩ | ⟨holder, _, left⟩
    · have back : ∀ other, after.Holder other → before.Holder other := by
        intro other isHolder
        by_cases same : other = index
        · rw [same] at isHolder ⊢
          exact holder.mp isHolder
        · exact (holder_other effect same).mp isHolder
      exact invariant.one first second (back first isFirst) (back second isSecond)
    · have nobody : ∀ other, ¬ before.Holder other := fun other isHolder =>
        zeroNotOne (free.symm.trans (invariant.held.mpr ⟨other, isHolder⟩))
      have only : ∀ other, after.Holder other → other = index := by
        intro other isHolder
        by_contra different
        exact nobody other ((holder_other effect different).mp isHolder)
      rw [only first isFirst, only second isSecond]
    · have nobody : ∀ other, ¬ after.Holder other := by
        intro other isHolder
        by_cases same : other = index
        · rw [same] at isHolder
          exact left isHolder
        · have was := (holder_other effect same).mp isHolder
          exact same (invariant.one other index was holder)
      exact absurd isFirst (nobody first)

variable {thread : EntryThread} {m : Machine} {place : EntryPlace}

/-- A thread that has been put somewhere. -/
theorem threads_put (other : Nat) : (system.put index m place).threads other =
    if other = index then some ⟨m.core, place⟩ else system.threads other :=
  Function.update_apply ..

theorem holder_put : (system.put index m place).Holder index ↔ place.Locked m := by
  unfold EntrySystem.Holder
  rw [threads_put, if_pos rfl]
  constructor
  · rintro ⟨thread, isThread, locked⟩
    obtain rfl := Option.some.inj isThread
    exact locked
  · intro locked
    exact ⟨_, rfl, locked⟩

theorem holder_iff (isThread : system.threads index = some thread) :
    system.Holder index ↔ thread.place.Locked (system.machine thread) := by
  unfold EntrySystem.Holder
  rw [isThread]
  constructor
  · rintro ⟨other, isOther, locked⟩
    obtain rfl := Option.some.inj isOther
    exact locked
  · intro locked
    exact ⟨_, rfl, locked⟩

/-- What a thread changes outside of C functions leaves the blocks of others alone. -/
theorem blocks_untouched (invariant : EntryInvariant layout before)
    (isThread : before.threads index = some thread) {mem : ByteMem}
    (untouched : Untouched layout thread.tcb before.mem mem) :
    ∀ other two, other ≠ index → before.threads other = some two →
      ∀ query, InHeader two.tcb query ∨ OnStack two.tcb query →
        mem query = before.mem query := by
  intro other two different isTwo query inside
  have block := (invariant.safe other two isTwo).block
  have low : 2 ^ 32 ≤ two.tcb := block.low
  have locked : layout.locked < two.tcb ∨ two.tcb + 0x10000 ≤ layout.locked := block.locked
  have apart := invariant.apart other index two thread different isTwo isThread
  unfold BlocksApart at apart
  unfold InHeader OnStack at inside
  refine untouched query (by omega) (by omega) ?_ ?_
  · rw [InHeader]
    omega
  · rw [OnStack]
    omega

/-- The effect of a step that puts its thread somewhere. -/
theorem effect_put (invariant : EntryInvariant layout before)
    (isThread : before.threads index = some thread)
    (base : m.segmentBase = thread.core.segmentBase) (safe : EntrySafe layout m place)
    (blocks : ∀ other two, other ≠ index → before.threads other = some two →
      ∀ query, InHeader two.tcb query ∨ OnStack two.tcb query →
        m.mem query = before.mem query)
    (lock : LockEffect layout before index (before.put index m place)) :
    StepEffect layout before index (before.put index m place) where
  others := fun other different => by
    rw [threads_put, if_neg different]
  blocks := blocks
  own := by
    intro own isOwn
    rw [threads_put, if_pos rfl] at isOwn
    obtain rfl := Option.some.inj isOwn
    exact safe
  apart := by
    intro own isOwn other two different isTwo
    rw [threads_put, if_pos rfl] at isOwn
    obtain rfl := Option.some.inj isOwn
    have sameBase : EntryThread.tcb ⟨m.core, place⟩ = thread.tcb :=
      congrArg (fun bases : SegmentReg → BitVec 64 => (bases .fs).toNat) base
    rw [sameBase]
    exact invariant.apart index other thread two different.symm isThread isTwo
  lock := lock

/-- The effect of an instruction outside of C functions that does not move the lock. -/
theorem effect_plain (invariant : EntryInvariant layout before)
    (isThread : before.threads index = some thread)
    (base : m.segmentBase = thread.core.segmentBase) (safe : EntrySafe layout m place)
    (untouched : Untouched layout thread.tcb before.mem m.mem)
    (byte : m.mem layout.locked = before.mem layout.locked)
    (locked : place.Locked m ↔ thread.place.Locked (before.machine thread)) :
    StepEffect layout before index (before.put index m place) := by
  refine effect_put invariant isThread base safe
    (blocks_untouched invariant isThread untouched) (.kept byte ?_)
  rw [holder_put, holder_iff isThread]
  exact locked

/-- An instruction that changes nothing in memory. -/
theorem untouched_refl (tcb : Nat) (mem : ByteMem) : Untouched layout tcb mem mem :=
  fun _ _ _ _ _ => rfl

/-- An instruction of an entry. -/
theorem untouched_exec {instr : Instr} (within : instr.Within 0x8 0x100)
    (high : m.fsBase + 0x10000 < 2 ^ 64) :
    Untouched layout m.fsBase m.mem (instr.exec m).mem := by
  intro query _ _ notInside _
  refine mem_exec_outside within (by omega) ?_
  unfold InHeader at notInside
  omega

/-- The lock is outside of the block. -/
theorem byte_exec {instr : Instr} (within : instr.Within 0x8 0x100)
    (block : layout.Block m.fsBase) :
    (instr.exec m).mem layout.locked = m.mem layout.locked := by
  have high := block.high
  have apart := block.locked
  exact mem_exec_outside within (by omega) (by omega)

end Step

section Lock

variable {code : CCode} {layout : EntryLayout} {before after : EntrySystem} {index : Nat}
  {thread : EntryThread} {func : RuntimeFunction} {entered called m : Machine}

/-- Moving a byte into `r11` sets the low byte. -/
theorem low8_movImm8 (imm : BitVec 8) (m : Machine) :
    ((Instr.movImm8 .r11 imm).exec m).low8 .r11 = imm := by
  have moved : ((Instr.movImm8 .r11 imm).exec m).regs .r11 =
      m.regs .r11 &&& ~~~ 255#64 ||| imm.zeroExtend 64 := rfl
  rw [Machine.low8, moved]
  refine BitVec.eq_of_getLsbD_eq fun bit inside => ?_
  simp only [BitVec.truncate_eq_setWidth, BitVec.getLsbD_setWidth, BitVec.getLsbD_or,
    BitVec.getLsbD_and, BitVec.getLsbD_not, BitVec.zeroExtend, inside, decide_true,
    Bool.true_and]
  have mask : (255#64).getLsbD bit = true := by
    have cases : bit = 0 ∨ bit = 1 ∨ bit = 2 ∨ bit = 3 ∨ bit = 4 ∨ bit = 5 ∨ bit = 6 ∨
        bit = 7 := by omega
    rcases cases with rfl | rfl | rfl | rfl | rfl | rfl | rfl | rfl <;> rfl
  rw [mask]
  have wide : bit < 64 := by omega
  simp [wide]

/-- What exchanging the lock does. -/
structure Exchanged (locked : Nat) (m after : Machine) : Prop where
  segmentBase : after.segmentBase = m.segmentBase
  regs : ∀ reg, reg ≠ .r11 → after.regs reg = m.regs reg
  seen : after.low8 .r11 = (m.mem locked).toBitVec
  byte : after.mem locked = UInt8.ofBitVec (m.low8 .r11)
  others : ∀ query, query ≠ locked → after.mem query = m.mem query

theorem exchanged (locked : Nat) (m : Machine) :
    Exchanged locked m (exchangeLocked locked m) where
  segmentBase := rfl
  regs := fun _ other => if_neg other
  seen := low8_movImm8 _ _
  byte := by
    change ByteMem.store m.mem locked 1 (m.low8 .r11).toNat locked = _
    rw [ByteMem.store, if_pos ⟨Nat.le_refl _, Nat.lt_succ_self _⟩, Nat.sub_self,
      Nat.pow_zero, Nat.div_one]
    apply UInt8.toNat_inj.mp
    rw [UInt8.toNat_ofNat', UInt8.toNat_ofBitVec]
    exact Nat.mod_eq_of_lt (m.low8 .r11).isLt
  others := fun query other => ByteMem.store_other _ (by omega)

/-- Exchanging the lock leaves every block alone. -/
theorem untouched_exchange (tcb : Nat) :
    Untouched layout tcb m.mem (exchangeLocked layout.locked m).mem :=
  fun query _ other _ _ => (exchanged layout.locked m).others query other

theorem header_exchange (block : layout.Block m.fsBase) :
    ∀ query, InHeader m.fsBase query →
      (exchangeLocked layout.locked m).mem query = m.mem query := by
  intro query inside
  apply (exchanged layout.locked m).others
  have apart := block.locked
  unfold InHeader at inside
  omega

/-- A thread tries to take the lock: it has it if it was free. -/
theorem effect_lockExchange (invariant : EntryInvariant layout before)
    (isThread : before.threads index = some thread)
    (place : thread.place = .locking func entered .exchange) :
    StepEffect layout before index
      (before.put index (exchangeLocked layout.locked (before.machine thread))
        (.locking func entered .test)) := by
  have safe := invariant.safe index thread isThread
  rw [place] at safe
  obtain ⟨left, past, one⟩ := safe.place
  have exchange := exchanged layout.locked (before.machine thread)
  have sameBase : (before.machine thread).fsBase = entered.fsBase := by
    rw [Machine.fsBase, past.segmentBase, Machine.fsBase]
  have header := header_exchange safe.block
  refine effect_put invariant isThread exchange.segmentBase
    (safe_outside safe _ exchange.segmentBase header ⟨left, ?_, by rintro ⟨⟩⟩)
    (blocks_untouched invariant isThread (untouched_exchange thread.tcb)) ?_
  · exact past.outside exchange.segmentBase (by rw [← sameBase]; exact header) exchange.regs
  · have byte : (exchangeLocked layout.locked (before.machine thread)).mem layout.locked = 1 := by
      rw [exchange.byte, one rfl]
      rfl
    rcases invariant.byte with free | taken
    · refine .taken free byte (holder_put.mpr ?_)
      change (exchangeLocked layout.locked (before.machine thread)).low8 .r11 = 0
      rw [exchange.seen]
      exact congrArg UInt8.toBitVec free
    · refine .kept (byte.trans taken.symm) ?_
      rw [holder_put, holder_iff isThread, place]
      refine ⟨fun zero => ?_, False.elim⟩
      have seen : (exchangeLocked layout.locked (before.machine thread)).low8 .r11 = 1 := by
        rw [exchange.seen]
        exact congrArg UInt8.toBitVec taken
      exact absurd (zero.symm.trans seen) (by decide)

/-- A thread gives the lock back. -/
theorem effect_unlockExchange (invariant : EntryInvariant layout before)
    (isThread : before.threads index = some thread)
    (place : thread.place = .unlocking func entered true) :
    StepEffect layout before index
      (before.put index (exchangeLocked layout.locked (before.machine thread))
        (.leaving (.function func) entered 0)) := by
  have safe := invariant.safe index thread isThread
  rw [place] at safe
  obtain ⟨left, past, zero⟩ := safe.place
  have exchange := exchanged layout.locked (before.machine thread)
  have sameBase : (before.machine thread).fsBase = entered.fsBase := by
    rw [Machine.fsBase, past.segmentBase, Machine.fsBase]
  have header := header_exchange safe.block
  have some : 0 < (Escape.function func).leave.length := by
    cases func <;> decide
  refine effect_put invariant isThread exchange.segmentBase
    (safe_outside safe _ exchange.segmentBase header
      ⟨left, some, exchangeLocked layout.locked (before.machine thread), ?_, .refl _⟩)
    (blocks_untouched invariant isThread (untouched_exchange thread.tcb)) ?_
  · exact past.outside exchange.segmentBase (by rw [← sameBase]; exact header) exchange.regs
  · refine .given ?_ ?_ ?_
    · rw [holder_iff isThread, place]
      trivial
    · change (exchangeLocked layout.locked (before.machine thread)).mem layout.locked = 0
      rw [exchange.byte, zero rfl]
      rfl
    · rw [holder_put]
      exact id

/-- The call of a C function pushes the return address on the stack of the runtime. -/
theorem pushed_callTo (invariant : EntryInvariant layout before)
    (isThread : before.threads index = some thread)
    (place : thread.place = .calling func entered) (returnAddress : Nat) {query : Nat}
    (outside : query < thread.tcb + 0xffb8 ∨ thread.tcb + 0xffc0 ≤ query) :
    (callTo returnAddress (before.machine thread)).mem query = before.mem query := by
  have safe := invariant.safe index thread isThread
  rw [place] at safe
  obtain ⟨left, past⟩ := safe.place
  have sameBase : thread.tcb = entered.fsBase :=
    congrArg (fun bases : SegmentReg → BitVec 64 => (bases .fs).toNat) past.segmentBase
  have block : layout.Block entered.fsBase := sameBase ▸ safe.block
  have high := block.high
  have stack := stack_entered left block past
  have stackAt : ((before.machine thread).regs .rsp - 8).toNat = thread.tcb + 0xffb8 := by
    rw [BitVec.toNat_sub, stack, sameBase]
    change (2 ^ 64 - 8 + _) % _ = _
    omega
  exact ByteMem.store_other _ (by rw [stackAt]; omega)

theorem untouched_callTo (invariant : EntryInvariant layout before)
    (isThread : before.threads index = some thread)
    (place : thread.place = .calling func entered) (returnAddress : Nat) :
    Untouched layout thread.tcb before.mem
      (callTo returnAddress (before.machine thread)).mem := by
  intro query _ _ _ notOnStack
  unfold OnStack at notOnStack
  exact pushed_callTo invariant isThread place returnAddress (by omega)

/-- A thread calls a C function. -/
theorem effect_call (invariant : EntryInvariant layout before)
    (isThread : before.threads index = some thread)
    (place : thread.place = .calling func entered) (returnAddress : Nat) :
    StepEffect layout before index
      (before.put index (callTo returnAddress (before.machine thread))
        (.running func entered (callTo returnAddress (before.machine thread)))) := by
  have pushed : ∀ query, query < thread.tcb + 0xffb8 ∨ thread.tcb + 0xffc0 ≤ query →
      (callTo returnAddress (before.machine thread)).mem query = before.mem query :=
    fun _ => pushed_callTo invariant isThread place returnAddress
  have untouched := untouched_callTo invariant isThread place returnAddress
  have safe := invariant.safe index thread isThread
  rw [place] at safe
  obtain ⟨left, past⟩ := safe.place
  have sameBase : thread.tcb = entered.fsBase :=
    congrArg (fun bases : SegmentReg → BitVec 64 => (bases .fs).toNat) past.segmentBase
  have locked : layout.locked < thread.tcb ∨ thread.tcb + 0x10000 ≤ layout.locked :=
    safe.block.locked
  have header : ∀ query, InHeader thread.tcb query →
      (callTo returnAddress (before.machine thread)).mem query = before.mem query := by
    intro query inside
    unfold InHeader at inside
    exact pushed query (by omega)
  refine effect_plain invariant isThread rfl (safe_outside safe _ rfl header ⟨left, ?_⟩)
    untouched (pushed _ (by omega)) ?_
  · refine ⟨past.segmentBase, ?_, ?_, ?_⟩
    · intro query inside
      rw [← sameBase] at inside
      exact (header query inside).trans (past.header query (by rw [← sameBase]; exact inside))
    · exact congrArg (· - 8) past.stack
    · intro reg listed
      refine Eq.trans (if_neg ?_) (past.calleeSaved reg listed)
      rintro rfl
      revert listed
      decide
  · rw [place]
    exact Iff.rfl

/-- A step of a C function. -/
theorem effect_function (invariant : EntryInvariant layout before)
    (isThread : before.threads index = some thread)
    (place : thread.place = .running func entered called)
    (stepped : code.step func (before.machine thread) m)
    (writes : ∀ query, ¬ before.MayWrite layout index query → m.mem query = before.mem query) :
    StepEffect layout before index (before.put index m (.running func entered called)) := by
  have safe := invariant.safe index thread isThread
  rw [place] at safe
  obtain ⟨left, within⟩ := safe.place
  have base := code.segmentBase func _ _ stepped
  have sameBase : (before.machine thread).fsBase = entered.fsBase := by
    rw [Machine.fsBase, within.segmentBase, Machine.fsBase]
  have header : ∀ query, InHeader (before.machine thread).fsBase query →
      m.mem query = before.mem query := by
    intro query inside
    exact writes query fun allowed => (allowed.2 index thread isThread).1 inside
  refine effect_put invariant isThread base
    (safe_outside safe _ base header
      ⟨left, base.trans within.segmentBase, ?_, within.stack, within.calleeSaved⟩)
    ?_ (.kept ?_ ?_)
  · intro query inside
    exact (header query (by rw [sameBase]; exact inside)).trans (within.header query inside)
  · intro other two different isTwo query inside
    refine writes query fun allowed => ?_
    have kept := allowed.2 other two isTwo
    rcases inside with inHeader | onStack
    · exact kept.1 inHeader
    · exact kept.2 different onStack
  · exact writes _ fun allowed => allowed.1 rfl
  · rw [holder_put, holder_iff isThread, place]
    exact Iff.rfl

/-- A C function returns to its entry. -/
theorem effect_functionReturns (invariant : EntryInvariant layout before)
    (isThread : before.threads index = some thread)
    (place : thread.place = .running func entered called)
    (returned : code.returns func called (before.machine thread)) :
    StepEffect layout before index
      (before.put index (before.machine thread) (.unlocking func entered false)) := by
  have safe := invariant.safe index thread isThread
  rw [place] at safe
  obtain ⟨left, within⟩ := safe.place
  have past : Past (.function func) entered (before.machine thread) := by
    refine ⟨within.segmentBase, within.header, ?_, ?_⟩
    · rw [code.stack func called _ returned, within.stack]
      exact BitVec.sub_add_cancel _ _
    · intro reg listed
      rw [code.calleeSaved func called _ returned reg listed]
      exact within.calleeSaved reg listed
  refine effect_plain invariant isThread rfl
    (safe_outside safe _ rfl (fun _ _ => rfl) ⟨left, past, by rintro ⟨⟩⟩)
    (untouched_refl _ _) rfl ?_
  rw [place]
  exact Iff.rfl

/-- The kernel executes a system call. -/
theorem effect_kernel (invariant : EntryInvariant layout before)
    (isThread : before.threads index = some thread)
    (place : thread.place = .trapping entered)
    (base : m.segmentBase = thread.core.segmentBase)
    (regs : ∀ reg, reg ≠ .rax → reg ≠ .rcx → reg ≠ .r11 → m.regs reg = thread.core.regs reg)
    (writes : ∀ query, 2 ^ 32 ≤ query → m.mem query = before.mem query) :
    StepEffect layout before index (before.put index m (.leaving .syscall entered 0)) := by
  have safe := invariant.safe index thread isThread
  rw [place] at safe
  obtain ⟨left, past⟩ := safe.place
  have sameBase : (before.machine thread).fsBase = entered.fsBase := by
    rw [Machine.fsBase, past.segmentBase, Machine.fsBase]
  have low := safe.block.low
  have header : ∀ query, InHeader entered.fsBase query → m.mem query = before.mem query := by
    intro query inside
    rw [sameBase] at low
    unfold InHeader at inside
    exact writes query (by omega)
  have released : Past .syscall entered m := by
    refine ⟨base.trans past.segmentBase, ?_, ?_, ?_⟩
    · intro query inside
      exact (header query inside).trans (past.header query inside)
    · exact (regs .rsp (by decide) (by decide) (by decide)).trans past.stack
    · intro reg listed
      refine (regs reg ?_ ?_ ?_).trans (past.calleeSaved reg listed)
      all_goals
        rintro rfl
        revert listed
        decide
  refine effect_plain invariant isThread base
    (safe_outside safe _ base (by rw [sameBase]; exact header)
      ⟨left, by decide, m, released, .refl _⟩)
    (fun query high _ _ _ => writes query high) (writes _ layout.lockedOutside) ?_
  rw [place]
  exact Iff.rfl

/-- In the sandbox a thread changes two words of its block. -/
theorem untouched_inside
    (writes : ∀ query, 2 ^ 32 ≤ query →
      (query < thread.tcb + tcbContinuation ∨ thread.tcb + tcbContinuation + 8 ≤ query) →
      (query < thread.tcb + 0x88 ∨ thread.tcb + 0x88 + 8 ≤ query) →
      m.mem query = before.mem query) : Untouched layout thread.tcb before.mem m.mem := by
  intro query above _ notInside _
  unfold InHeader at notInside
  exact writes query above (by rw [tcbContinuation]; omega) (by omega)

/-- A thread in the sandbox. -/
theorem effect_inside (invariant : EntryInvariant layout before)
    (isThread : before.threads index = some thread) (place : thread.place = .sandbox)
    (base : m.segmentBase = thread.core.segmentBase)
    (writes : ∀ query, 2 ^ 32 ≤ query →
      (query < thread.tcb + tcbContinuation ∨ thread.tcb + tcbContinuation + 8 ≤ query) →
      (query < thread.tcb + 0x88 ∨ thread.tcb + 0x88 + 8 ≤ query) →
      m.mem query = before.mem query) :
    StepEffect layout before index (before.put index m .sandbox) := by
  have safe := invariant.safe index thread isThread
  rw [place] at safe
  have low : 2 ^ 32 ≤ thread.tcb := safe.block.low
  have locked : layout.locked < thread.tcb ∨ thread.tcb + 0x10000 ≤ layout.locked :=
    safe.block.locked
  have isTcb : m.fsBase = thread.tcb := by
    rw [Machine.fsBase, base, EntryThread.tcb]
  have early : ∀ offset, offset < tcbContinuation →
      m.mem (thread.tcb + offset) = before.mem (thread.tcb + offset) := by
    intro offset below
    rw [tcbContinuation] at below
    exact writes _ (by omega) (by rw [tcbContinuation]; omega) (by omega)
  have stays : EntrySafe layout m .sandbox := by
    refine ⟨?_, ?_, ?_⟩
    · rw [isTcb]
      exact safe.block
    · rw [isTcb]
      refine Eq.trans ?_ safe.self
      apply ByteMem.load_congr
      intro offset inside
      rw [Nat.add_assoc]
      exact early _ (by rw [tcbSelf, tcbContinuation]; omega)
    · change m.mem (m.fsBase + tcbInSyscall) = 0
      rw [isTcb, early _ (by decide)]
      exact safe.place
  refine effect_plain invariant isThread base stays (untouched_inside writes) ?_ ?_
  · refine writes _ layout.lockedOutside ?_ ?_
    · rw [tcbContinuation]
      omega
    · omega
  · rw [place]
    exact Iff.rfl

/-- Every step has such effects. -/
theorem EntryStep.effect (invariant : EntryInvariant layout before)
    (step : EntryStep code layout before index after) :
    StepEffect layout before index after := by
  cases step with
  | @start core unused block apart self flag =>
      refine ⟨fun other different => ?_, fun _ _ _ _ _ _ => rfl, ?_, ?_, .kept rfl ?_⟩
      · rw [threads_put, if_neg different]
      · intro own isOwn
        rw [threads_put, if_pos rfl] at isOwn
        obtain rfl := Option.some.inj isOwn
        exact ⟨block, self, flag⟩
      · intro own isOwn other two _ isTwo
        rw [threads_put, if_pos rfl] at isOwn
        obtain rfl := Option.some.inj isOwn
        exact apart other two isTwo
      · rw [holder_put]
        refine ⟨False.elim, ?_⟩
        rintro ⟨own, isOwn, _⟩
        rw [unused] at isOwn
        cases isOwn
  | exit isThread place =>
      have gone : Function.update before.threads index none index = none :=
        Function.update_self ..
      refine ⟨fun other different => Function.update_of_ne different _ _,
        fun _ _ _ _ _ _ => rfl, ?_, ?_, .kept rfl ?_⟩
      · intro own isOwn
        cases gone.symm.trans isOwn
      · intro own isOwn
        cases gone.symm.trans isOwn
      · rw [holder_iff isThread]
        constructor
        · rintro ⟨own, isOwn, _⟩
          cases gone.symm.trans isOwn
        · intro locked
          rcases place with place | ⟨entered, place⟩
          · rw [place] at locked
            exact locked.elim
          · rw [place] at locked
            exact locked.elim
  | inside isThread place base writes =>
      exact effect_inside invariant isThread place base writes
  | escape isThread place escape =>
      rename_i thread
      have safe := invariant.safe index thread isThread
      rw [place] at safe
      have some : 0 < escape.enter.length := by
        rcases escape with (_ | _) | _ <;> decide
      refine effect_plain invariant isThread rfl
        ⟨safe.block, safe.self, ⟨safe.self, safe.place⟩, some, .refl _⟩
        (untouched_refl _ _) rfl ?_
      rw [place]
      exact Iff.rfl
  | enter isThread place fetched =>
      rename_i thread escape entered pc instr
      have safe := invariant.safe index thread isThread
      rw [place] at safe
      have within := enter_within escape instr (List.mem_of_getElem? fetched)
      refine effect_plain invariant isThread (segmentBase_exec _ _) (safe_enter safe fetched)
        (untouched_exec within safe.block.high) (byte_exec within safe.block) ?_
      rw [place]
      unfold Escape.afterEnter
      split
      next => exact Iff.rfl
      next => cases escape <;> exact Iff.rfl
  | lockSet isThread place =>
      rename_i thread func entered
      have safe := invariant.safe index thread isThread
      rw [place] at safe
      obtain ⟨left, past, _⟩ := safe.place
      refine effect_plain invariant isThread rfl
        (safe_outside safe _ rfl (fun _ _ => rfl)
          ⟨left, past.outside rfl (fun _ _ => rfl) fun _ other => if_neg other,
            fun _ => low8_movImm8 1 _⟩)
        (untouched_refl _ _) rfl ?_
      rw [place]
      exact Iff.rfl
  | lockExchange isThread place => exact effect_lockExchange invariant isThread place
  | lockTest isThread place =>
      rename_i thread func entered
      have safe := invariant.safe index thread isThread
      rw [place] at safe
      obtain ⟨left, past, _⟩ := safe.place
      refine effect_plain invariant isThread rfl
        (safe_outside safe _ rfl (fun _ _ => rfl)
          ⟨left, past.outside rfl (fun _ _ => rfl) fun _ _ => rfl, by rintro ⟨⟩⟩)
        (untouched_refl _ _) rfl ?_
      rw [place]
      change (_ &&& _ == 0) = true ↔ (before.machine thread).low8 .r11 = 0
      rw [BitVec.and_self, beq_iff_eq]
  | lockBranch isThread place =>
      rename_i thread func entered
      have safe := invariant.safe index thread isThread
      rw [place] at safe
      obtain ⟨left, past, _⟩ := safe.place
      split
      next taken =>
        refine effect_plain invariant isThread rfl
          (safe_outside safe _ rfl (fun _ _ => rfl) ⟨left, past⟩) (untouched_refl _ _) rfl ?_
        rw [place]
        exact ⟨fun _ => taken, fun _ => trivial⟩
      next again =>
        refine effect_plain invariant isThread rfl
          (safe_outside safe _ rfl (fun _ _ => rfl) ⟨left, past, by rintro ⟨⟩⟩)
          (untouched_refl _ _) rfl ?_
        rw [place]
        exact ⟨False.elim, fun taken => again taken⟩
  | call isThread place => exact effect_call invariant isThread place _
  | function isThread place stepped writes =>
      exact effect_function invariant isThread place stepped writes
  | functionReturns isThread place returned =>
      exact effect_functionReturns invariant isThread place returned
  | unlockSet isThread place =>
      rename_i thread func entered
      have safe := invariant.safe index thread isThread
      rw [place] at safe
      obtain ⟨left, past, _⟩ := safe.place
      refine effect_plain invariant isThread rfl
        (safe_outside safe _ rfl (fun _ _ => rfl)
          ⟨left, past.outside rfl (fun _ _ => rfl) fun _ other => if_neg other,
            fun _ => low8_movImm8 0 _⟩)
        (untouched_refl _ _) rfl ?_
      rw [place]
      exact Iff.rfl
  | unlockExchange isThread place => exact effect_unlockExchange invariant isThread place
  | kernel isThread place base regs writes =>
      exact effect_kernel invariant isThread place base regs writes
  | leave isThread place fetched =>
      rename_i thread escape entered pc instr
      have safe := invariant.safe index thread isThread
      rw [place] at safe
      have within := leave_within escape instr (List.mem_of_getElem? fetched)
      refine effect_plain invariant isThread (segmentBase_exec _ _) (safe_leave safe fetched)
        (untouched_exec within safe.block.high) (byte_exec within safe.block) ?_
      rw [place]
      unfold Escape.afterLeave
      split
      next => exact Iff.rfl
      next => cases escape <;> exact Iff.rfl
  | resume isThread place =>
      rename_i thread func entered
      have safe := invariant.safe index thread isThread
      rw [place] at safe
      obtain ⟨left, released, past, same⟩ := safe.place
      refine effect_plain invariant isThread rfl
        (safe_outside safe _ rfl (fun _ _ => rfl) (flag_left safe.block same))
        (untouched_refl _ _) rfl ?_
      rw [place]
      exact Iff.rfl

end Lock

end Mcfi
