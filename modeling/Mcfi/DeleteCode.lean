import Mcfi.JitCode

namespace Mcfi

open ByteMem Tiling

/-!
# Deleting code

`delete_code` turns code into data and forgets its boundaries.  It checks that
execution does not run into the deleted range from either side, but not whether
other code branches into it, so the absence of dangling branches is a property
of whole histories of fills and deletions.
-/

section Deleting

/--
`delete_code`.  The second call of `which_area` gets an address where it needs an
offset; the words of the table are counted from the aligned address.
-/
def deleteCode (handle : Option Nat) (addr length : Nat) (runtime : Runtime) :
    Rt Runtime := do
  let (index, m) ← getCodeHeap handle runtime.modules
  if fourGB ≤ length ∨ addr < m.baseAddr ∨
      m.baseAddr + m.sz < addr + length then
    .error (.quit "[rock_delete_code] illegal\n")
  else if (m.baseAddr < addr ∧
        whichArea m.codeDataBitmap (addr - m.baseAddr - 1) 2 = .code) ∨
      (addr + length < m.baseAddr + m.sz ∧
        whichArea m.codeDataBitmap (addr + length - 1) 2 = .code) then
    .error (.quit "[rock_delete_code] to-be deleted code is reachable from sequential control-flow transfer\n")
  else
    return { runtime with
      table := runtime.table.fill (addr / 8 * 8) ((length + 7) / 8 * 8) 0
      modules := runtime.modules.set index { m with
        codeDataBitmap :=
          setData m.codeDataBitmap (addr - m.baseAddr) length } }

/-- The record after a deletion. -/
def CodeRecord.delete (record : CodeRecord) (addr length : Nat) : CodeRecord :=
  fun query =>
    if addr ≤ query ∧ query < addr + length then none else record query

/-- The record after a fill. -/
def CodeRecord.fill (record : CodeRecord) (runtime : Runtime)
    (heap : CodeModule) (dst : Nat) (src : List UInt8) (extra : Nat) :
    CodeRecord :=
  match heap.verifier with
  | none => record
  | some v =>
      match installedCode runtime dst src extra with
      | some code => record.write dst code.length (instructions v code)
      | none =>
          match replacePatch runtime heap dst src extra with
          | some (start, patch) => record.replace v heap start patch
          | none => record

end Deleting

section Histories

/-- The runtime with the record of its code. -/
structure JitHeaps where
  runtime : Runtime
  record : CodeRecord

/-- A call that fills a heap or deletes code. -/
inductive CodeAction where
  | fill (bufferAddr : Nat) (handle : Option Nat) (dst : Nat)
      (src : List UInt8) (extra : Nat)
  | delete (handle : Option Nat) (addr length : Nat)

/-- A call that returns. -/
inductive CodeStep (before : JitHeaps) : CodeAction → JitHeaps → Prop where
  | fill
      {bufferAddr index dst extra : Nat} {handle : Option Nat}
      {heap : CodeModule} {src : List UInt8} {runtime : Runtime}
      (named : getCodeHeap handle before.runtime.modules = .ok (index, heap))
      (returned : codeHeapFill bufferAddr handle dst src extra before.runtime =
        .ok runtime) :
      CodeStep before (.fill bufferAddr handle dst src extra)
        ⟨runtime, before.record.fill before.runtime heap dst src extra⟩
  | delete
      {handle : Option Nat} {addr length : Nat} {runtime : Runtime}
      (returned : deleteCode handle addr length before.runtime = .ok runtime) :
      CodeStep before (.delete handle addr length)
        ⟨runtime, before.record.delete addr length⟩

/-- The states that calls of a kind reach. -/
inductive CodeRun (Allowed : JitHeaps → CodeAction → Prop) (start : JitHeaps) :
    JitHeaps → Prop where
  | start : CodeRun Allowed start start
  | step
      {before after : JitHeaps} {action : CodeAction}
      (run : CodeRun Allowed start before) (allowed : Allowed before action)
      (step : CodeStep before action after) :
      CodeRun Allowed start after

/-- An instruction of the record branches directly to an address. -/
def Branches (runtime : Runtime) (record : CodeRecord) (heap : CodeModule)
    (source : Nat) (target : Int) : Prop :=
  heap.Holds source ∧ ∃ v ins width, heap.verifier = some v ∧
    record source = some ins ∧ DirectClass v ins.state width ∧
    branchTargetIn runtime.image ins.stop width = target

/-- No instruction that is still marked as code branches into a range. -/
def NoDangling (record : CodeRecord) (after : Runtime) (addr length : Nat) :
    Prop :=
  ∀ heap ∈ after.modules, heap.codeHeap = true → ∀ (source : Nat) (target : Int),
    Branches after record heap source target →
    marked heap.codeDataBitmap (source - heap.baseAddr) = true →
      ¬ (addr ≤ target ∧ target < addr + length)

/-- Every direct branch leads to an instruction and into none. -/
def JitHeaps.Closed (state : JitHeaps) : Prop :=
  ∀ heap ∈ state.runtime.modules, heap.codeHeap = true →
    ∀ (source : Nat) (target : Int),
      Branches state.runtime state.record heap source target →
        ∃ (meant : Nat) (ins : Instruction), target = meant ∧
          state.record meant = some ins ∧
          ∀ other inside, heap.Holds other →
            state.record other = some inside →
              ¬ (inside.start < meant ∧ meant < inside.stop)

/-- Code heaps without code, whose automata are laid out as expected. -/
structure JitHeaps.Fresh (state : JitHeaps) : Prop where
  verifiers : ∀ heap ∈ state.runtime.modules, heap.codeHeap = true →
    ∃ v, heap.verifier = some v ∧ v.Fits heap
  apart : ∀ (i j : Nat) (left right : CodeModule),
    state.runtime.modules[i]? = some left →
    state.runtime.modules[j]? = some right →
    left.codeHeap = true → right.codeHeap = true → i ≠ j →
      ∀ addr, left.Holds addr → ¬ right.Holds addr
  noRecord : ∀ addr, state.record addr = none
  noBoundary : ∀ heap ∈ state.runtime.modules, heap.codeHeap = true →
    ∀ addr, heap.Holds addr → state.runtime.table addr ≠ UInt8.ofNat DCV

/-- The branches into a range from outside meet the instructions there. -/
def TargetsKept (state : JitHeaps) (heap : CodeModule) (dst len : Nat)
    (pieces : List Instruction) : Prop :=
  ∀ source target : Nat,
    Branches state.runtime state.record heap source target →
    source < dst ∨ dst + len ≤ source →
    dst ≤ target → target < dst + len →
      ∃ piece ∈ pieces, dst + piece.start = target

/-- What a fill relies on, by what it does. -/
structure CarefulFill (state : JitHeaps) (heap : CodeModule) (v : Verifier)
    (dst : Nat) (src : List UInt8) (extra : Nat) : Prop where
  data : (fillFlags extra).code = false →
    whichArea heap.codeDataBitmap (dst - heap.baseAddr) src.length = .data →
      ∀ addr, dst ≤ addr → addr < dst + src.length →
        marked heap.codeDataBitmap (addr - heap.baseAddr) = false
  install : ∀ code, installedCode state.runtime dst src extra = some code →
    (∀ source ins, heap.Holds source → state.record source = some ins →
      source < dst → ins.stop ≤ dst) ∧
    TargetsKept state heap dst src.length (instructions v code)
  replace : ∀ start patch,
    replacePatch state.runtime heap dst src extra = some (start, patch) →
    whichArea heap.codeDataBitmap (start - heap.baseAddr) patch.length = .code →
      (∀ addr, start ≤ addr → addr < start + patch.length →
        marked heap.codeDataBitmap (addr - heap.baseAddr) = true) ∧
      TargetsKept state heap start patch.length (instructions v patch)

/-- Code outside a range branches into it. -/
def BranchedInto (state : JitHeaps) (heap : CodeModule) (addr length : Nat) :
    Prop :=
  ∃ source target : Nat,
    Branches state.runtime state.record heap source target ∧
      (source < addr ∨ addr + length ≤ source) ∧
      addr ≤ target ∧ target < addr + length

/--
The stores of a deletion clear the marks and the boundaries of its range, as they
do whenever it starts at a word.
-/
def ClearsRange (runtime : Runtime) (addr length : Nat) : Prop :=
  (addr % 8 = 0 ∨ length < 16) ∧
    ∀ query, addr ≤ query → query < addr + length →
      runtime.table query = UInt8.ofNat DCV →
        query < addr / 8 * 8 + (length + 7) / 8 * 8

/--
What the calls rely on.  A data fill covers no code; code is installed where no
instruction reaches in from before, and code is replaced as a whole; branches
from elsewhere into written code meet its instructions; and a deletion clears
its range, into which no other code branches.
-/
def CodeAction.Careful (state : JitHeaps) : CodeAction → Prop
  | fill _ handle dst src extra =>
      ∀ index heap v,
        getCodeHeap handle state.runtime.modules = .ok (index, heap) →
        heap.verifier = some v → CarefulFill state heap v dst src extra
  | delete handle addr length =>
      ClearsRange state.runtime addr length ∧
        ∀ index heap,
          getCodeHeap handle state.runtime.modules = .ok (index, heap) →
            ¬ BranchedInto state heap addr length

end Histories

section Invariant

/-- What is known of one heap and its record. -/
structure HeapSound (v : Verifier) (image table : ByteMem) (record : CodeRecord)
    (heap : CodeModule) : Prop where
  standing : ∀ addr ins, heap.Holds addr → record addr = some ins →
    ins.start = addr ∧ ins.In v image heap
  allMarked : ∀ addr ins, heap.Holds addr → record addr = some ins →
    ∀ k, addr ≤ k → k < ins.stop →
      marked heap.codeDataBitmap (k - heap.baseAddr) = true
  recorded : ∀ addr, heap.Holds addr → table addr = UInt8.ofNat DCV →
    ∃ ins, record addr = some ins
  apart : ∀ left right first second, heap.Holds left → heap.Holds right →
    record left = some first → record right = some second →
      left < right → first.stop ≤ right
  closed : ∀ addr ins width, heap.Holds addr → record addr = some ins →
    DirectClass v ins.state width →
      ∃ (target : Nat) (meant : Instruction),
        branchTargetIn image ins.stop width = target ∧
          heap.Holds target ∧ record target = some meant

/-- The invariant of histories. -/
structure JitHeaps.Sound (state : JitHeaps) : Prop where
  apart : ∀ (i j : Nat) (left right : CodeModule),
    state.runtime.modules[i]? = some left →
    state.runtime.modules[j]? = some right →
    left.codeHeap = true → right.codeHeap = true → i ≠ j →
      ∀ addr, left.Holds addr → ¬ right.Holds addr
  heaps : ∀ heap ∈ state.runtime.modules, heap.codeHeap = true →
    ∃ v, heap.verifier = some v ∧ v.Fits heap ∧
      HeapSound v state.runtime.image state.runtime.table state.record heap

variable {v : Verifier} {image table : ByteMem} {record : CodeRecord}
  {heap : CodeModule}

/-- The bytes of an instruction of the record are code of the heap. -/
private theorem HeapSound.code
    (sound : HeapSound v image table record heap) {addr k : Nat}
    {ins : Instruction} (holds : heap.Holds addr)
    (found : record addr = some ins) (above : addr ≤ k)
    (below : k < ins.stop) :
    heap.Holds k ∧
      marked heap.codeDataBitmap (k - heap.baseAddr) = true := by
  obtain ⟨rfl, inside⟩ := sound.standing addr ins holds found
  have low := inside.low
  have high := inside.high
  exact ⟨⟨by omega, by omega⟩,
    sound.allMarked _ ins holds found k above below⟩

/-- A heap in whose code nothing was written is as before. -/
theorem HeapSound.frame
    {newImage newTable : ByteMem} {newRecord : CodeRecord}
    (sound : HeapSound v image table record heap) (long : v.LongBranches)
    (imageSame : ∀ addr, heap.Holds addr →
      marked heap.codeDataBitmap (addr - heap.baseAddr) = true →
        newImage addr = image addr)
    (tableSame : ∀ addr, heap.Holds addr → newTable addr = UInt8.ofNat DCV →
      table addr = UInt8.ofNat DCV)
    (recordSame : ∀ addr, heap.Holds addr → newRecord addr = record addr) :
    HeapSound v newImage newTable newRecord heap := by
  have bytesSame : ∀ addr ins, heap.Holds addr → record addr = some ins →
      ∀ k, addr ≤ k → k < ins.stop → newImage k = image k := by
    intro addr ins holds found k above below
    obtain ⟨inHeap, isMarked⟩ := sound.code holds found above below
    exact imageSame k inHeap isMarked
  refine ⟨?_, ?_, ?_, ?_, ?_⟩
  · intro addr ins holds found
    rw [recordSame addr holds] at found
    obtain ⟨rfl, inside⟩ := sound.standing addr ins holds found
    refine ⟨rfl, inside.low, inside.nonempty, inside.high, ?_,
      inside.accepting⟩
    rw [← inside.run]
    congr 1
    refine readImage_congr fun k above below =>
      bytesSame _ ins holds found k above ?_
    have nonempty := inside.nonempty
    omega
  · intro addr ins holds found
    rw [recordSame addr holds] at found
    exact sound.allMarked addr ins holds found
  · intro addr holds boundary
    rw [recordSame addr holds]
    exact sound.recorded addr holds (tableSame addr holds boundary)
  · intro left right first second leftHolds rightHolds leftFound rightFound
    rw [recordSame left leftHolds] at leftFound
    rw [recordSame right rightHolds] at rightFound
    exact sound.apart left right first second leftHolds rightHolds leftFound
      rightFound
  · intro addr ins width holds found direct
    rw [recordSame addr holds] at found
    obtain ⟨target, meant, computed, targetHolds, targetFound⟩ :=
      sound.closed addr ins width holds found direct
    obtain ⟨rfl, inside⟩ := sound.standing addr ins holds found
    have offset := inside.long long direct
    refine ⟨target, meant, ?_, targetHolds, ?_⟩
    · rw [← computed]
      refine branchTargetIn_congr (by omega) fun k above below =>
        bytesSame _ ins holds found k (by omega) below
    · rw [recordSame target targetHolds]
      exact targetFound

/-- Instructions apart from written code stand as before. -/
private theorem Instruction.In.written
    {ins : Instruction} {dst : Nat} {code : List UInt8} {bmp : ByteMem}
    (inside : ins.In v image heap)
    (apart : ins.stop ≤ dst ∨ dst + code.length ≤ ins.start) :
    ins.In v (image.storeBytes dst code)
      { heap with codeDataBitmap := bmp } := by
  refine ⟨inside.low, inside.nonempty, inside.high, ?_, inside.accepting⟩
  rw [← inside.run]
  congr 1
  refine readImage_congr fun k above below => storeBytes_outside _ ?_
  omega

/-- Written code keeps its heap sound. -/
theorem HeapSound.write
    {dst : Nat} {code tary : List UInt8} {checkTerminate : Bool}
    {bmp : ByteMem} (sound : HeapSound v image table record heap)
    (fits : v.Fits heap)
    (passes : Passes v heap table dst code checkTerminate tary)
    (kept : ∀ k, marked heap.codeDataBitmap k = true → marked bmp k = true)
    (covered : ∀ addr, dst ≤ addr → addr < dst + code.length →
      marked bmp (addr - heap.baseAddr) = true)
    (clear : ∀ source ins, heap.Holds source → record source = some ins →
      source < dst → ins.stop ≤ dst)
    (targets : ∀ source ins width (target : Nat), heap.Holds source →
      record source = some ins → DirectClass v ins.state width →
      branchTargetIn image ins.stop width = target →
      source < dst ∨ dst + code.length ≤ source →
      dst ≤ target → target < dst + code.length →
        ∃ piece ∈ instructions v code, dst + piece.start = target) :
    HeapSound v (image.storeBytes dst code) (table.storeBytes dst tary)
      (record.write dst code.length (instructions v code))
      { heap with codeDataBitmap := bmp } := by
  have tiles := passes.cut.tiles
  have low := passes.low
  have high := passes.high
  -- a recorded instruction is a piece of the code or one that stood before
  have cases : ∀ addr ins, heap.Holds addr →
      record.write dst code.length (instructions v code) addr = some ins →
        (∃ piece ∈ instructions v code, dst + piece.start = addr ∧
          ins = piece.at dst) ∨
        ((addr < dst ∨ dst + code.length ≤ addr) ∧ record addr = some ins ∧
          (ins.stop ≤ dst ∨ dst + code.length ≤ addr)) := by
    intro addr ins holds found
    by_cases inside : dst ≤ addr ∧ addr < dst + code.length
    · exact Or.inl (CodeRecord.write_some found inside.1 inside.2)
    · have outside : addr < dst ∨ dst + code.length ≤ addr := by omega
      rw [CodeRecord.write_outside outside] at found
      refine Or.inr ⟨outside, found, ?_⟩
      exact outside.imp_left fun before => clear addr ins holds found before
  refine ⟨?_, ?_, ?_, ?_, ?_⟩
  · intro addr ins holds found
    rcases cases addr ins holds found with ⟨piece, member, rfl, rfl⟩ |
      ⟨_, old, apart⟩
    · refine ⟨rfl, ?_⟩
      have placed : (piece.at dst).In v (image.storeBytes dst code) heap :=
        passes.piece_in member
      exact ⟨placed.low, placed.nonempty, placed.high, placed.run,
        placed.accepting⟩
    · obtain ⟨rfl, inside⟩ := sound.standing addr ins holds old
      exact ⟨rfl, inside.written apart⟩
  · intro addr ins holds found k above below
    rcases cases addr ins holds found with ⟨piece, member, rfl, rfl⟩ |
      ⟨_, old, _⟩
    · have within := tiles.inside member
      simp only [Instruction.at] at below
      exact covered k (by omega) (by omega)
    · exact kept _ (sound.allMarked addr ins holds old k above below)
  · intro addr holds boundary
    by_cases inside : dst ≤ addr ∧ addr < dst + code.length
    · obtain ⟨piece, member, rfl⟩ :=
        (passes.boundary_iff inside.1 inside.2).mp boundary
      exact ⟨_, CodeRecord.write_piece tiles member⟩
    · have outside : addr < dst ∨ dst + code.length ≤ addr := by omega
      rw [storeBytes_outside _ (by rw [passes.cut.length]; exact outside)]
        at boundary
      rw [CodeRecord.write_outside outside]
      exact sound.recorded addr holds boundary
  · intro left right first second leftHolds rightHolds leftFound rightFound
      before
    rcases cases left first leftHolds leftFound with
      ⟨piece, member, rfl, rfl⟩ | ⟨leftOutside, leftOld, leftApart⟩
    · have within := tiles.inside member
      simp only [Instruction.at]
      rcases cases right second rightHolds rightFound with
        ⟨other, otherMember, rfl, rfl⟩ | ⟨rightOutside, _, _⟩
      · have ordered := tiles.ordered member otherMember (by omega)
        omega
      · omega
    · rcases cases right second rightHolds rightFound with
        ⟨other, otherMember, rfl, rfl⟩ | ⟨_, rightOld, _⟩
      · have within := tiles.inside otherMember
        omega
      · exact sound.apart left right first second leftHolds rightHolds leftOld
          rightOld before
  · intro addr ins width holds found direct
    rcases cases addr ins holds found with ⟨piece, member, rfl, rfl⟩ |
      ⟨outside, old, apart⟩
    · obtain ⟨target, computed, targetHolds, boundary⟩ :=
        passes.target fits member direct
      refine ⟨target, ?_⟩
      by_cases inside : dst ≤ target ∧ target < dst + code.length
      · obtain ⟨other, otherMember, rfl⟩ :=
          (passes.boundary_iff inside.1 inside.2).mp boundary
        exact ⟨_, computed, targetHolds, CodeRecord.write_piece tiles otherMember⟩
      · have targetOutside : target < dst ∨ dst + code.length ≤ target := by
          omega
        rw [storeBytes_outside _ (by rw [passes.cut.length]; exact targetOutside)]
          at boundary
        obtain ⟨meant, meantFound⟩ := sound.recorded target targetHolds boundary
        refine ⟨meant, computed, targetHolds, ?_⟩
        rw [CodeRecord.write_outside targetOutside]
        exact meantFound
    · obtain ⟨target, meant, computed, targetHolds, meantFound⟩ :=
        sound.closed addr ins width holds old direct
      obtain ⟨rfl, standing⟩ := sound.standing addr ins holds old
      have offset := standing.long fits.long direct
      have sameTarget : branchTargetIn (image.storeBytes dst code) ins.stop
          width = target := by
        rw [← computed]
        refine (branchTargetIn_congr (by omega) fun k above below => ?_).symm
        exact (storeBytes_outside _ (by omega)).symm
      refine ⟨target, ?_⟩
      by_cases inside : dst ≤ target ∧ target < dst + code.length
      · obtain ⟨piece, member, rfl⟩ := targets ins.start ins width target holds
          old direct computed outside inside.1 inside.2
        exact ⟨_, sameTarget, targetHolds, CodeRecord.write_piece tiles member⟩
      · refine ⟨meant, sameTarget, targetHolds, ?_⟩
        rw [CodeRecord.write_outside (by omega)]
        exact meantFound

/-- An address that is recorded after a deletion lies outside its range. -/
private theorem CodeRecord.delete_some
    {addr length query : Nat} {ins : Instruction}
    (found : record.delete addr length query = some ins) :
    record query = some ins ∧ ¬ (addr ≤ query ∧ query < addr + length) := by
  unfold CodeRecord.delete at found
  split at found
  next => cases found
  next outside => exact ⟨found, outside⟩

/-- A deletion that no branch leads into keeps its heap sound. -/
theorem HeapSound.delete
    {addr length : Nat} {bmp newTable : ByteMem}
    (sound : HeapSound v image table record heap)
    (low : heap.baseAddr ≤ addr)
    (marks : ∀ k, marked bmp k = true ↔
      marked heap.codeDataBitmap k = true ∧
        ¬ (addr - heap.baseAddr ≤ k ∧ k < addr - heap.baseAddr + length))
    (apart : ∀ source ins, heap.Holds source → record source = some ins →
      source < addr → ins.stop ≤ addr)
    (cleared : ∀ query, newTable query = UInt8.ofNat DCV →
      table query = UInt8.ofNat DCV ∧
        ¬ (addr ≤ query ∧ query < addr + length))
    (unreached : ∀ source ins width (target : Nat), heap.Holds source →
      record source = some ins → DirectClass v ins.state width →
      branchTargetIn image ins.stop width = target →
      source < addr ∨ addr + length ≤ source →
        ¬ (addr ≤ target ∧ target < addr + length)) :
    HeapSound v image newTable (record.delete addr length)
      { heap with codeDataBitmap := bmp } := by
  refine ⟨?_, ?_, ?_, ?_, ?_⟩
  · intro source ins holds found
    obtain ⟨old, _⟩ := CodeRecord.delete_some found
    obtain ⟨starts, inside⟩ := sound.standing source ins holds old
    exact ⟨starts, inside.low, inside.nonempty, inside.high, inside.run,
      inside.accepting⟩
  · intro source ins holds found k above below
    obtain ⟨old, outside⟩ := CodeRecord.delete_some found
    refine (marks _).mpr ⟨sound.allMarked source ins holds old k above below, ?_⟩
    have sourceLow := holds.1
    by_cases before : source < addr
    · have ends := apart source ins holds old before
      change heap.baseAddr ≤ source at sourceLow
      change ¬ (addr - heap.baseAddr ≤ k - heap.baseAddr ∧
        k - heap.baseAddr < addr - heap.baseAddr + length)
      omega
    · change heap.baseAddr ≤ source at sourceLow
      change ¬ (addr - heap.baseAddr ≤ k - heap.baseAddr ∧
        k - heap.baseAddr < addr - heap.baseAddr + length)
      omega
  · intro query holds boundary
    obtain ⟨old, outside⟩ := cleared query boundary
    obtain ⟨ins, found⟩ := sound.recorded query holds old
    refine ⟨ins, ?_⟩
    rw [CodeRecord.delete, if_neg outside]
    exact found
  · intro left right first second leftHolds rightHolds leftFound rightFound
    exact sound.apart left right first second leftHolds rightHolds
      (CodeRecord.delete_some leftFound).1 (CodeRecord.delete_some rightFound).1
  · intro source ins width holds found direct
    obtain ⟨old, outside⟩ := CodeRecord.delete_some found
    obtain ⟨target, meant, computed, targetHolds, targetFound⟩ :=
      sound.closed source ins width holds old direct
    have spared := unreached source ins width target holds old direct computed
      (by omega)
    refine ⟨target, meant, computed, targetHolds, ?_⟩
    rw [CodeRecord.delete, if_neg spared]
    exact targetFound

end Invariant

section Steps

variable {before after : JitHeaps} {index : Nat} {heap : CodeModule}
  {bmp : ByteMem}

/-- The modules after one of them was replaced. -/
private theorem getElem?_replaced
    {modules : List CodeModule} {new other : CodeModule} {i : Nat}
    (located : modules[index]? = some heap)
    (found : (modules.set index new)[i]? = some other) :
    (i = index ∧ other = new) ∨ (i ≠ index ∧ modules[i]? = some other) := by
  have inRange := (List.getElem?_eq_some_iff.mp located).1
  rcases eq_or_ne index i with rfl | different
  · rw [List.getElem?_set_self inRange] at found
    exact Or.inl ⟨rfl, (Option.some.inj found).symm⟩
  · rw [List.getElem?_set_ne different] at found
    exact Or.inr ⟨different.symm, found⟩

/-- A call that touches one heap only, and keeps it sound. -/
private theorem JitHeaps.Sound.update
    {v : Verifier} (sound : before.Sound)
    (located : before.runtime.modules[index]? = some heap)
    (isHeap : heap.codeHeap = true) (hasVerifier : heap.verifier = some v)
    (fits : v.Fits heap)
    (modules : after.runtime.modules =
      before.runtime.modules.set index { heap with codeDataBitmap := bmp })
    (imageSame : ∀ addr, ¬ heap.Holds addr →
      after.runtime.image addr = before.runtime.image addr)
    (tableSame : ∀ addr, ¬ heap.Holds addr →
      after.runtime.table addr = UInt8.ofNat DCV →
        before.runtime.table addr = UInt8.ofNat DCV)
    (recordSame : ∀ addr, ¬ heap.Holds addr →
      after.record addr = before.record addr)
    (kept : HeapSound v after.runtime.image after.runtime.table after.record
      { heap with codeDataBitmap := bmp }) :
    after.Sound := by
  -- each heap has a predecessor with the same range
  have earlier : ∀ (i : Nat) (left : CodeModule),
      after.runtime.modules[i]? = some left →
      ∃ old : CodeModule, before.runtime.modules[i]? = some old ∧
        old.codeHeap = left.codeHeap ∧
        ∀ addr, left.Holds addr ↔ old.Holds addr := by
    intro i left found
    rw [modules] at found
    rcases getElem?_replaced located found with ⟨rfl, rfl⟩ | ⟨_, found⟩
    · exact ⟨heap, located, rfl, fun _ => Iff.rfl⟩
    · exact ⟨left, found, rfl, fun _ => Iff.rfl⟩
  constructor
  · intro i j left right leftFound rightFound leftHeap rightHeap different addr
      leftHolds rightHolds
    obtain ⟨oldLeft, oldLeftFound, leftSame, leftRange⟩ :=
      earlier i left leftFound
    obtain ⟨oldRight, oldRightFound, rightSame, rightRange⟩ :=
      earlier j right rightFound
    exact sound.apart i j oldLeft oldRight oldLeftFound oldRightFound
      (leftSame.trans leftHeap) (rightSame.trans rightHeap) different addr
      ((leftRange addr).mp leftHolds) ((rightRange addr).mp rightHolds)
  · intro other member otherHeap
    obtain ⟨i, found⟩ := List.mem_iff_getElem?.mp member
    rw [modules] at found
    rcases getElem?_replaced located found with ⟨_, rfl⟩ | ⟨different, found⟩
    · exact ⟨v, hasVerifier, ⟨fits.layout, fits.long, fits.inside⟩, kept⟩
    · obtain ⟨w, otherVerifier, otherFits, otherSound⟩ :=
        sound.heaps other (List.mem_of_getElem? found) otherHeap
      have outside : ∀ addr, other.Holds addr → ¬ heap.Holds addr :=
        sound.apart i index other heap found located otherHeap isHeap different
      exact ⟨w, otherVerifier, otherFits, otherSound.frame otherFits.long
        (fun addr holds _ => imageSame addr (outside addr holds))
        (fun addr holds => tableSame addr (outside addr holds))
        (fun addr holds => recordSame addr (outside addr holds))⟩

/-- Replacing a module by itself. -/
private theorem setModule_self
    {runtime : Runtime} (located : runtime.modules[index]? = some heap) :
    runtime.setModule index heap = runtime := by
  have same : runtime.modules.set index heap = runtime.modules := by
    obtain ⟨inRange, rfl⟩ := List.getElem?_eq_some_iff.mp located
    exact List.set_getElem_self inRange
  rw [Runtime.setModule, same]

/-- Writing code that passes into a sound heap. -/
private theorem JitHeaps.Sound.written
    {v : Verifier} {dst : Nat} {code tary : List UInt8} {checkTerminate : Bool}
    (sound : before.Sound)
    (located : before.runtime.modules[index]? = some heap)
    (isHeap : heap.codeHeap = true)
    (passes : Passes v heap before.runtime.table dst code checkTerminate tary)
    (kept : ∀ k, marked heap.codeDataBitmap k = true → marked bmp k = true)
    (covered : ∀ addr, dst ≤ addr → addr < dst + code.length →
      marked bmp (addr - heap.baseAddr) = true)
    (clear : ∀ source ins, heap.Holds source →
      before.record source = some ins → source < dst → ins.stop ≤ dst)
    (targets : TargetsKept before heap dst code.length (instructions v code)) :
    JitHeaps.Sound
      ⟨(before.runtime.writeCode dst code tary).setModule index
          { heap with codeDataBitmap := bmp },
        before.record.write dst code.length (instructions v code)⟩ := by
  obtain ⟨w, verifierIs, fits, own⟩ :=
    sound.heaps heap (List.mem_of_getElem? located) isHeap
  cases passes.hasVerifier.symm.trans verifierIs
  have elsewhere : ∀ addr, ¬ heap.Holds addr →
      addr < dst ∨ dst + code.length ≤ addr := by
    intro addr outside
    have low := passes.low
    have high := passes.high
    change ¬ (heap.baseAddr ≤ addr ∧ addr < heap.baseAddr + heap.sz) at outside
    omega
  refine sound.update located isHeap verifierIs fits rfl
    (fun addr outside => storeBytes_outside _ (elsewhere addr outside)) ?_
    (fun addr outside => CodeRecord.write_outside (elsewhere addr outside))
    (own.write fits passes kept covered clear ?_)
  · intro addr outside boundary
    change before.runtime.table.storeBytes dst tary addr = _ at boundary
    rw [storeBytes_outside _ (by
      rw [passes.cut.length]; exact elsewhere addr outside)] at boundary
    exact boundary
  · intro source ins width target holds found direct computed
    exact targets source target
      ⟨holds, v, ins, width, verifierIs, found, direct, computed⟩

/-- A fill keeps the heaps sound. -/
theorem JitHeaps.Sound.fill
    {v : Verifier} {dst extra : Nat} {src : List UInt8} {runtime : Runtime}
    (sound : before.Sound)
    (located : before.runtime.modules[index]? = some heap)
    (isHeap : heap.codeHeap = true) (hasVerifier : heap.verifier = some v)
    (careful : CarefulFill before heap v dst src extra)
    (effect : FillEffect index heap dst src extra before.runtime runtime) :
    JitHeaps.Sound
      ⟨runtime, before.record.fill before.runtime heap dst src extra⟩ := by
  obtain ⟨w, verifierIs, fits, own⟩ :=
    sound.heaps heap (List.mem_of_getElem? located) isHeap
  cases hasVerifier.symm.trans verifierIs
  cases effect with
  | unchanged notInstalled skipped =>
      have recordIs : before.record.fill before.runtime heap dst src extra =
          before.record := by
        simp only [CodeRecord.fill, hasVerifier, notInstalled]
        split
        next start patch isPatch =>
          exact if_neg (skipped start patch isPatch)
        next => rfl
      rw [recordIs]
      exact sound
  | data asData area low high =>
      have recordIs : before.record.fill before.runtime heap dst src extra =
          before.record := by
        simp [CodeRecord.fill, hasVerifier, installedCode, replacePatch, asData,
          area]
      have same := congrArg Runtime.modules (setModule_self located)
      rw [recordIs]
      refine sound.update located isHeap hasVerifier fits same.symm
        (fun addr outside => storeBytes_outside _ ?_) (fun _ _ => id)
        (fun _ _ => rfl) (own.frame fits.long (fun addr _ isMarked => ?_)
          (fun _ _ => id) (fun _ _ => rfl))
      · change ¬ (heap.baseAddr ≤ addr ∧ addr < heap.baseAddr + heap.sz)
          at outside
        omega
      · refine storeBytes_outside _ ?_
        by_contra inside
        have spared := careful.data asData area addr (by omega) (by omega)
        exact absurd isMarked (by rw [spared]; decide)
  | @replaced w start patch tary isPatch area boundary passes =>
      cases hasVerifier.symm.trans passes.hasVerifier
      have recordIs : before.record.fill before.runtime heap dst src extra =
          before.record.write start patch.length (instructions v patch) := by
        simp only [CodeRecord.fill, hasVerifier,
          installedCode_of_patch isPatch, isPatch, CodeRecord.replace, area,
          if_true]
      rw [recordIs]
      have same : (before.runtime.writeCode start patch tary).setModule index
          heap = before.runtime.writeCode start patch tary :=
        setModule_self located
      rw [← same]
      obtain ⟨covered, targets⟩ := careful.replace start patch isPatch area
      -- the patch starts at a boundary, so no instruction reaches into it
      have clear : ∀ source ins, heap.Holds source →
          before.record source = some ins → source < start →
            ins.stop ≤ start := by
        intro source ins holds found earlier
        by_cases startHolds : heap.Holds start
        · obtain ⟨old, oldFound⟩ := own.recorded start startHolds boundary
          exact own.apart source start ins old holds startHolds found oldFound
            earlier
        · have low := passes.low
          have ends := (own.standing source ins holds found).2.high
          change ¬ (heap.baseAddr ≤ start ∧ start < heap.baseAddr + heap.sz)
            at startHolds
          omega
      exact sound.written located isHeap passes (fun _ => id) covered clear
        targets
  | @installed w code tary installs aligned sameLength passes =>
      cases hasVerifier.symm.trans passes.hasVerifier
      have recordIs : before.record.fill before.runtime heap dst src extra =
          before.record.write dst code.length (instructions v code) := by
        simp only [CodeRecord.fill, hasVerifier, installs]
      rw [recordIs]
      have low := passes.low
      have base := heap.baseAligned
      simp only [pageSize] at base
      have marks := fun k => marked_setCode heap.codeDataBitmap src.length k
        (by omega : (dst - heap.baseAddr) % 8 = 0)
      obtain ⟨clear, targets⟩ := careful.install code installs
      exact sound.written located isHeap passes
        (fun k old => (marks k).mpr (Or.inl old))
        (fun addr above below => (marks _).mpr (Or.inr (by omega)))
        clear (sameLength ▸ targets)

/-- What a returned deletion has checked and done. -/
theorem deleteCode_ok
    {handle : Option Nat} {addr length : Nat} {runtime result : Runtime}
    (returned : deleteCode handle addr length runtime = .ok result) :
    ∃ index heap, getCodeHeap handle runtime.modules = .ok (index, heap) ∧
      heap.baseAddr ≤ addr ∧ addr + length ≤ heap.baseAddr + heap.sz ∧
      (heap.baseAddr < addr →
        whichArea heap.codeDataBitmap (addr - heap.baseAddr - 1) 2 ≠ .code) ∧
      result = { runtime with
        table := runtime.table.fill (addr / 8 * 8) ((length + 7) / 8 * 8) 0
        modules := runtime.modules.set index { heap with
          codeDataBitmap :=
            setData heap.codeDataBitmap (addr - heap.baseAddr) length } } := by
  unfold deleteCode at returned
  rw [bind_eq_ok] at returned
  obtain ⟨⟨index, heap⟩, named, returned⟩ := returned
  simp only at returned
  split at returned
  next => cases returned
  next inside =>
    split at returned
    next => cases returned
    next unreached =>
      cases returned
      exact ⟨index, heap, named, by omega, by omega,
        fun above crossing => unreached (Or.inl ⟨above, crossing⟩), rfl⟩

/-- The boundaries that a deletion leaves. -/
private theorem fill_boundary
    {runtime : Runtime} {addr length query : Nat}
    (clears : ClearsRange runtime addr length)
    (boundary : runtime.table.fill (addr / 8 * 8) ((length + 7) / 8 * 8) 0
      query = UInt8.ofNat DCV) :
    runtime.table query = UInt8.ofNat DCV ∧
      ¬ (addr ≤ query ∧ query < addr + length) := by
  by_cases inside : addr / 8 * 8 ≤ query ∧
      query < addr / 8 * 8 + (length + 7) / 8 * 8
  · rw [fill_inside _ _ inside] at boundary
    exact absurd boundary (by decide)
  · rw [fill_outside _ _ (by omega)] at boundary
    refine ⟨boundary, fun within => ?_⟩
    have below := clears.2 query within.1 within.2 boundary
    omega

/-- No instruction reaches from before into a deleted range. -/
private theorem apart_of_deleted
    {v : Verifier} {image table : ByteMem} {record : CodeRecord} {addr : Nat}
    (sound : HeapSound v image table record heap)
    (uncrossed : heap.baseAddr < addr →
      whichArea heap.codeDataBitmap (addr - heap.baseAddr - 1) 2 ≠ .code)
    {source : Nat} {ins : Instruction} (holds : heap.Holds source)
    (found : record source = some ins) (earlier : source < addr) :
    ins.stop ≤ addr := by
  by_contra reaches
  have low : heap.baseAddr ≤ source := holds.1
  refine uncrossed (by omega) ((whichArea_code _ _ (by decide)).mpr fun k small => ?_)
  have isMarked := sound.allMarked source ins holds found (addr - 1 + k)
    (by omega) (by omega)
  have same : addr - 1 + k - heap.baseAddr = addr - heap.baseAddr - 1 + k := by
    omega
  rw [same] at isMarked
  exact isMarked

/-- A deletion of a range that no other code branches into keeps the heaps sound. -/
theorem JitHeaps.Sound.delete
    {handle : Option Nat} {addr length : Nat} {result : Runtime}
    (sound : before.Sound)
    (returned : deleteCode handle addr length before.runtime = .ok result)
    (clears : ClearsRange before.runtime addr length)
    (unreached : ∀ index heap,
      getCodeHeap handle before.runtime.modules = .ok (index, heap) →
        ¬ BranchedInto before heap addr length) :
    JitHeaps.Sound ⟨result, before.record.delete addr length⟩ := by
  obtain ⟨index, heap, named, low, high, uncrossed, rfl⟩ :=
    deleteCode_ok returned
  obtain ⟨located, isHeap⟩ := getCodeHeap_ok named
  obtain ⟨v, hasVerifier, fits, own⟩ :=
    sound.heaps heap (List.mem_of_getElem? located) isHeap
  have base := heap.baseAligned
  simp only [pageSize] at base
  refine sound.update located isHeap hasVerifier fits rfl (fun _ _ => rfl)
    (fun query _ boundary => (fill_boundary clears boundary).1)
    (fun query outside => if_neg fun within => outside ⟨?_, ?_⟩)
    (own.delete low
      (fun k => marked_setData _ _ k (clears.1.imp_left (by omega)))
      (fun source ins => apart_of_deleted own uncrossed)
      (fun query => fill_boundary clears) ?_)
  · omega
  · omega
  · intro source ins width target holds found direct computed outside within
    exact unreached index heap named ⟨source, target,
      ⟨holds, v, ins, width, hasVerifier, found, direct, computed⟩, outside,
      within⟩

/-- A returned call keeps the heaps sound. -/
theorem JitHeaps.Sound.step
    {action : CodeAction} (sound : before.Sound)
    (careful : action.Careful before) (step : CodeStep before action after) :
    after.Sound := by
  cases step with
  | @fill bufferAddr index dst extra handle heap src runtime named returned =>
      obtain ⟨here, filled, same, effect⟩ := codeHeapFill_effect returned
      cases named.symm.trans same
      obtain ⟨located, isHeap⟩ := getCodeHeap_ok named
      obtain ⟨v, hasVerifier, _⟩ :=
        sound.heaps heap (List.mem_of_getElem? located) isHeap
      exact sound.fill located isHeap hasVerifier
        (careful _ _ v named hasVerifier) effect
  | delete returned => exact sound.delete returned careful.1 careful.2

/-- Heaps without code are sound. -/
theorem JitHeaps.Fresh.sound {start : JitHeaps} (fresh : start.Fresh) :
    start.Sound := by
  have nothing : ∀ {addr ins}, start.record addr ≠ some ins := by
    intro addr ins found
    rw [fresh.noRecord addr] at found
    cases found
  refine ⟨fresh.apart, fun heap member isHeap => ?_⟩
  obtain ⟨v, hasVerifier, fits⟩ := fresh.verifiers heap member isHeap
  refine ⟨v, hasVerifier, fits, ?_, ?_, ?_, ?_, ?_⟩
  · exact fun addr ins _ found => absurd found nothing
  · exact fun addr ins _ found => absurd found nothing
  · exact fun addr holds boundary =>
      absurd boundary (fresh.noBoundary heap member isHeap addr holds)
  · exact fun left right first second _ _ found => absurd found nothing
  · exact fun addr ins width _ found => absurd found nothing

/-- Every state that careful calls reach is sound. -/
theorem CodeRun.sound
    {start state : JitHeaps} (fresh : start.Fresh)
    (run : CodeRun (fun before action => action.Careful before) start state) :
    state.Sound := by
  induction run with
  | start => exact fresh.sound
  | step _ careful step inductionHypothesis =>
      exact inductionHypothesis.step careful step

/-- In sound heaps every branch leads to an instruction and into none. -/
theorem JitHeaps.Sound.closed {state : JitHeaps} (sound : state.Sound) :
    state.Closed := by
  intro heap member isHeap source target branches
  obtain ⟨holds, v, ins, width, hasVerifier, found, direct, computed⟩ := branches
  obtain ⟨w, verifierIs, _, own⟩ := sound.heaps heap member isHeap
  cases hasVerifier.symm.trans verifierIs
  obtain ⟨meant, there, meantIs, meantHolds, meantFound⟩ :=
    own.closed source ins width holds found direct
  refine ⟨meant, there, computed.symm.trans meantIs, meantFound, ?_⟩
  rintro other inside otherHolds otherFound ⟨above, below⟩
  have starts := (own.standing other inside otherHolds otherFound).1
  have ends := own.apart other meant inside there otherHolds meantHolds
    otherFound meantFound (by omega)
  omega

/--
A deletion that clears its range leaves no dangling branch exactly if no other
code branches into the range.
-/
theorem JitHeaps.Sound.noDangling_iff
    {state : JitHeaps} {handle : Option Nat} {addr length : Nat}
    {result : Runtime} (sound : state.Sound)
    (returned : deleteCode handle addr length state.runtime = .ok result)
    (named : getCodeHeap handle state.runtime.modules = .ok (index, heap))
    (clears : ClearsRange state.runtime addr length) :
    NoDangling state.record result addr length ↔
      ¬ BranchedInto state heap addr length := by
  obtain ⟨here, same, sameNamed, low, high, uncrossed, rfl⟩ :=
    deleteCode_ok returned
  cases named.symm.trans sameNamed
  obtain ⟨located, isHeap⟩ := getCodeHeap_ok named
  obtain ⟨v, hasVerifier, fits, own⟩ :=
    sound.heaps heap (List.mem_of_getElem? located) isHeap
  have base := heap.baseAligned
  simp only [pageSize] at base
  have marks := fun k => marked_setData heap.codeDataBitmap length k
    (clears.1.imp_left (by omega) :
      (addr - heap.baseAddr) % 8 = 0 ∨ length < 16)
  constructor
  · rintro spared ⟨source, target, branches, outside, above, below⟩
    obtain ⟨holds, w, ins, width, verifierIs, found, direct, computed⟩ := branches
    obtain ⟨starts, inside⟩ := own.standing source ins holds found
    have sourceLow : heap.baseAddr ≤ source := holds.1
    have isMarked := own.allMarked source ins holds found source
      (Nat.le_refl _) (starts ▸ inside.nonempty)
    have stays := (marks (source - heap.baseAddr)).mpr ⟨isMarked, by omega⟩
    refine spared { heap with codeDataBitmap := _ }
      (List.mem_set (List.getElem?_eq_some_iff.mp located).1 _) isHeap source
      target ?_ stays ⟨by omega, by omega⟩
    exact ⟨holds, w, ins, width, verifierIs, found, direct, computed⟩
  · intro unreached other member otherHeap source target branches isMarked within
    obtain ⟨holds, w, ins, width, verifierIs, found, direct, computed⟩ := branches
    change branchTargetIn state.runtime.image ins.stop width = target at computed
    rw [← computed] at within
    obtain ⟨i, there⟩ := List.mem_iff_getElem?.mp member
    rcases getElem?_replaced located there with ⟨_, rfl⟩ | ⟨different, there⟩
    · cases hasVerifier.symm.trans verifierIs
      obtain ⟨meant, _, meantIs, _⟩ :=
        own.closed source ins width holds found direct
      rw [meantIs] at within
      have stays := (marks (source - heap.baseAddr)).mp isMarked
      have sourceLow : heap.baseAddr ≤ source := holds.1
      exact unreached ⟨source, meant, ⟨holds, v, ins, width, hasVerifier, found,
        direct, meantIs⟩, by omega, by omega, by omega⟩
    · -- branches of another heap stay in that heap
      obtain ⟨_, otherVerifier, _, otherSound⟩ :=
        sound.heaps other (List.mem_of_getElem? there) otherHeap
      cases otherVerifier.symm.trans verifierIs
      obtain ⟨meant, _, meantIs, meantHolds, _⟩ :=
        otherSound.closed source ins width holds found direct
      rw [meantIs] at within
      exact sound.apart i _ other heap there located otherHeap isHeap different
        meant meantHolds ⟨by omega, by omega⟩

end Steps

section Examples

/-- A heap with a bitmap, for short jumps. -/
def jumpHeap (bmp : ByteMem) : CodeModule :=
  { exampleHeap shortJump with codeDataBitmap := bmp }

/-- One empty heap. -/
def jumpStart : JitHeaps where
  runtime := { Runtime.boot with modules := [jumpHeap fun _ => 0] }
  record := fun _ => none

theorem fresh_jumpStart : jumpStart.Fresh where
  verifiers := by
    intro heap member _
    cases List.mem_singleton.mp member
    exact ⟨shortJump, rfl, layout_spreadVerifier _, longBranches_shortJump,
      by change 0x400000 + 0x1000 ≤ fourGB; decide⟩
  apart := by
    intro i j left right leftFound rightFound _ _ different
    have first := (List.getElem?_eq_some_iff.mp leftFound).1
    have second := (List.getElem?_eq_some_iff.mp rightFound).1
    change i < 1 at first
    change j < 1 at second
    omega
  noRecord := fun _ => rfl
  noBoundary := by
    intro heap _ _ addr _
    change (0 : UInt8) ≠ UInt8.ofNat DCV
    decide

/-- The heap after a jump to itself was installed at its start. -/
def jumpOnce : JitHeaps where
  runtime := (jumpStart.runtime.writeCode 0x400000 [0xeb, 0xfe]
    [UInt8.ofNat DCV, 0]).setModule 0 (jumpHeap (setCode (fun _ => 0) 0 2))
  record := jumpStart.record.write 0x400000 2
    (instructions shortJump [0xeb, 0xfe])

/-- The heap after a second jump there was installed. -/
def jumpTwice : JitHeaps where
  runtime := (jumpOnce.runtime.writeCode 0x400008 [0xeb, 0xf6]
    [UInt8.ofNat DCV, 0]).setModule 0
      (jumpHeap (setCode (setCode (fun _ => 0) 0 2) 8 2))
  record := jumpOnce.record.write 0x400008 2
    (instructions shortJump [0xeb, 0xf6])

theorem step_jumpOnce :
    CodeStep jumpStart (.fill 0 (some 0) 0x400000 [0xeb, 0xfe] 9) jumpOnce := by
  have named : getCodeHeap (some 0) jumpStart.runtime.modules =
      .ok (0, jumpHeap fun _ => 0) := rfl
  have returned : codeHeapFill 0 (some 0) 0x400000 [0xeb, 0xfe] 9
      jumpStart.runtime = .ok jumpOnce.runtime := by
    rfl
  exact CodeStep.fill named returned

theorem step_jumpTwice :
    CodeStep jumpOnce (.fill 0 (some 0) 0x400008 [0xeb, 0xf6] 9) jumpTwice := by
  have named : getCodeHeap (some 0) jumpOnce.runtime.modules =
      .ok (0, jumpHeap (setCode (fun _ => 0) 0 2)) := rfl
  have returned : codeHeapFill 0 (some 0) 0x400008 [0xeb, 0xf6] 9
      jumpOnce.runtime = .ok jumpTwice.runtime := by
    rfl
  exact CodeStep.fill named returned

/-- A history with one careful fill. -/
theorem run_jumpOnce :
    CodeRun (fun before action => action.Careful before) jumpStart jumpOnce := by
  refine .step .start ?_ step_jumpOnce
  intro index heap v _ _
  refine ⟨fun never => ?_, fun code _ => ⟨?_, ?_⟩, fun start patch never => ?_⟩
  · exact absurd never (by decide)
  · exact fun _ _ _ found => nomatch found
  · rintro source target ⟨_, _, _, _, _, found, _⟩
    cases found
  · cases never

end Examples

end Mcfi
