import Mcfi.JitCode

namespace Mcfi

open ByteMem Tiling

/-!
# Replacing code

A patch has to start at a boundary and is verified by itself.  What the rest of
the heap relies on is not looked at: where the patch ends, which of the old
boundaries are still branched to, and which ids stand in the range.
-/

section Statement

variable (v : Verifier)

/-- An instruction boundary in a code area. -/
def Boundary (heap : CodeModule) (table : ByteMem) (addr : Nat) : Prop :=
  heap.Holds addr ∧
    marked heap.codeDataBitmap (addr - heap.baseAddr) = true ∧
    table addr = UInt8.ofNat DCV

/--
Each boundary starts an accepted instruction which is a terminator or ends at an
address that is marked `DCV`.
-/
def WellFormedCode (runtime : Runtime) (heap : CodeModule)
    (record : CodeRecord) : Prop :=
  ∀ addr, Boundary heap runtime.table addr →
    ∃ ins, record addr = some ins ∧ ins.start = addr ∧
      ins.In v runtime.image heap ∧
      (terminates v ins.state = true ∨
        runtime.table ins.stop = UInt8.ofNat DCV)

/-- An instruction at a boundary branches to an address. -/
def BranchesTo (runtime : Runtime) (heap : CodeModule) (record : CodeRecord)
    (source : Nat) (target : Int) : Prop :=
  Boundary heap runtime.table source ∧
    ∃ ins width, record source = some ins ∧ DirectClass v ins.state width ∧
      branchTargetIn runtime.image ins.stop width = target

/-- What a replacement must keep. -/
structure ReplaceKeeps (heap : CodeModule) (record : CodeRecord) (start : Nat)
    (patch : List UInt8) (before after : Runtime) : Prop where
  wellFormed : WellFormedCode v after heap (record.replace v heap start patch)
  targets : ∀ (target source : Nat),
    before.table target = UInt8.ofNat DCV →
    BranchesTo v after heap (record.replace v heap start patch) source target →
      after.table target = UInt8.ofNat DCV
  ids : ∀ sym ∈ heap.funcsyms ++ heap.rai,
    start ≤ heap.baseAddr + sym.offset →
    heap.baseAddr + sym.offset < start + patch.length →
      after.table.load64 (heap.baseAddr + sym.offset) =
        before.table.load64 (heap.baseAddr + sym.offset)

/-- Where the boundaries are once a patch is in its place. -/
def PatchBoundary (table : ByteMem) (start : Nat) (patch : List UInt8)
    (addr : Nat) : Prop :=
  if start ≤ addr ∧ addr < start + patch.length then
    ∃ piece ∈ instructions v patch, start + piece.start = addr
  else
    table addr = UInt8.ofNat DCV

/--
What the checks of a replacement leave open.  An instruction that reaches into
the patch from before it is accepted as before, with the patched bytes, and a
terminator or followed by a boundary; the last instruction of the patch is a
terminator or followed by one; the old boundaries in the range that instructions
of the heap, outside or in the patch, branch to are boundaries of the patch; and
the words of registered symbols in the range hold nothing but the boundary bytes
of the patch.
-/
structure CarefulPatch (runtime : Runtime) (heap : CodeModule)
    (record : CodeRecord) (start : Nat) (patch : List UInt8) : Prop where
  overlap : ∀ source ins, Boundary heap runtime.table source → source < start →
    record source = some ins → start < ins.stop →
      ins.In v (runtime.image.storeBytes start patch) heap ∧
        (terminates v ins.state = true ∨
          PatchBoundary v runtime.table start patch ins.stop)
  ends : ∀ ins, (instructions v patch).getLast? = some ins →
    marked heap.codeDataBitmap (start + ins.start - heap.baseAddr) = true →
      terminates v ins.state = true ∨
        runtime.table (start + patch.length) = UInt8.ofNat DCV
  targets : ∀ (target source : Nat) (ins : Instruction) (width : Nat),
    start ≤ target → target < start + patch.length →
    runtime.table target = UInt8.ofNat DCV →
    source < start ∨ start + patch.length ≤ source →
    Boundary heap runtime.table source → record source = some ins →
    DirectClass v ins.state width →
    branchTargetIn (runtime.image.storeBytes start patch) ins.stop width =
        target →
      ∃ piece ∈ instructions v patch, start + piece.start = target
  own : ∀ (target : Nat) (piece : Instruction) (width : Nat),
    start ≤ target → target < start + patch.length →
    runtime.table target = UInt8.ofNat DCV →
    piece ∈ instructions v patch →
    marked heap.codeDataBitmap (start + piece.start - heap.baseAddr) = true →
    DirectClass v piece.state width →
    branchTargetIn (runtime.image.storeBytes start patch) (start + piece.stop)
        width = target →
      ∃ other ∈ instructions v patch, start + other.start = target
  ids : ∀ sym ∈ heap.funcsyms ++ heap.rai, ∀ k < 8,
    start ≤ heap.baseAddr + sym.offset →
    heap.baseAddr + sym.offset + k < start + patch.length →
      runtime.table (heap.baseAddr + sym.offset + k) =
        if heap.baseAddr + sym.offset + k - start ∈
            (instructions v patch).map Instruction.start then
          UInt8.ofNat DCV
        else
          0

end Statement

section Replacement

variable {v : Verifier} {heap : CodeModule} {record : CodeRecord}
  {runtime : Runtime} {start : Nat} {patch tary : List UInt8}
  {checkTerminate : Bool}

/-- The table outside a written range is as it was. -/
theorem writeCode_table
    (passes : Passes v heap runtime.table start patch checkTerminate tary)
    {addr : Nat}
    (outside : addr < start ∨ start + patch.length ≤ addr) :
    (runtime.writeCode start patch tary).table addr = runtime.table addr := by
  refine storeBytes_outside _ ?_
  rw [passes.cut.length]
  exact outside

/-- The image outside a written range is as it was. -/
theorem writeCode_image
    {addr : Nat} (outside : addr < start ∨ start + patch.length ≤ addr) :
    (runtime.writeCode start patch tary).image addr = runtime.image addr :=
  storeBytes_outside _ outside

/-- An instruction apart from a written range stands as before. -/
theorem Instruction.In.writeCode
    {ins : Instruction} (inside : ins.In v runtime.image heap)
    (apart : ins.stop ≤ start ∨ start + patch.length ≤ ins.start) :
    ins.In v (runtime.writeCode start patch tary).image heap := by
  refine ⟨inside.low, inside.nonempty, inside.high, ?_, inside.accepting⟩
  rw [← inside.run]
  congr 1
  refine readImage_congr fun k above below => writeCode_image ?_
  omega

/-- The boundaries after a patch was written. -/
theorem writeCode_boundary
    (passes : Passes v heap runtime.table start patch checkTerminate tary)
    (addr : Nat) :
    (runtime.writeCode start patch tary).table addr = UInt8.ofNat DCV ↔
      PatchBoundary v runtime.table start patch addr := by
  unfold PatchBoundary
  split
  next inside => exact passes.boundary_iff inside.1 inside.2
  next outside => rw [writeCode_table passes (by omega)]

/-- The bytes that a patch leaves in the table. -/
theorem writeCode_byte
    (passes : Passes v heap runtime.table start patch checkTerminate tary)
    {addr : Nat} (above : start ≤ addr) (below : addr < start + patch.length) :
    (runtime.writeCode start patch tary).table addr =
      if addr - start ∈ (instructions v patch).map Instruction.start then
        UInt8.ofNat DCV
      else
        0 := by
  have taryIs := passes.tary_eq
  have lengthIs : tary.length = patch.length := by
    rw [taryIs, boundaryBytes, List.length_map, List.length_range]
  have read := storeBytes_inside runtime.table above
    (by rw [lengthIs]; exact below)
  rw [taryIs, boundaryBytes, List.getElem?_map,
    List.getElem?_range (by omega), Option.map_some] at read
  rw [Runtime.writeCode, taryIs]
  exact Option.some.inj read

/-- A careful patch keeps the heap well formed. -/
theorem wellFormed_writeCode
    (passes : Passes v heap runtime.table start patch checkTerminate tary)
    (careful : CarefulPatch v runtime heap record start patch)
    (wellFormed : WellFormedCode v runtime heap record) :
    WellFormedCode v (runtime.writeCode start patch tary) heap
      (record.write start patch.length (instructions v patch)) := by
  have verified := passes.cut
  rintro addr ⟨holds, isMarked, isBoundary⟩
  by_cases inPatch : start ≤ addr ∧ addr < start + patch.length
  · obtain ⟨piece, member, rfl⟩ :=
      (passes.boundary_iff inPatch.1 inPatch.2).mp isBoundary
    refine ⟨piece.at start, CodeRecord.write_piece verified.tiles member, rfl,
      passes.piece_in member, ?_⟩
    rcases verified.tiles.next member with ⟨atEnd, isLast⟩ | ⟨next, isNext,
      starts⟩
    · refine (careful.ends piece isLast isMarked).imp_right fun next => ?_
      have stops : (piece.at start).stop = start + patch.length := by
        rw [Instruction.at, atEnd]
      rw [stops, writeCode_table passes (Or.inr (Nat.le_refl _))]
      exact next
    · right
      have inside := verified.tiles.inside isNext
      refine (passes.boundary_iff ?_ ?_).mpr ⟨next, isNext, ?_⟩ <;>
        simp only [Instruction.at] <;> omega
  · have outside : addr < start ∨ start + patch.length ≤ addr := by omega
    rw [writeCode_table passes outside] at isBoundary
    have before : Boundary heap runtime.table addr :=
      ⟨holds, isMarked, isBoundary⟩
    obtain ⟨ins, recorded, rfl, inside, follows⟩ := wellFormed addr before
    have recordedAfter : record.write start patch.length (instructions v patch)
        ins.start = some ins := by
      rw [CodeRecord.write_outside outside]
      exact recorded
    by_cases apart : ins.stop ≤ start ∨ start + patch.length ≤ ins.start
    · refine ⟨ins, recordedAfter, rfl, inside.writeCode apart, ?_⟩
      refine follows.imp_right fun next => ?_
      rw [writeCode_boundary passes, PatchBoundary]
      split
      next within =>
        -- the instruction ends where the patch starts
        have nonempty := inside.nonempty
        obtain ⟨piece, member, starts⟩ := verified.tiles.head
          (by omega : 0 < patch.length)
        exact ⟨piece, member, by omega⟩
      next => exact next
    · have overlapped := careful.overlap ins.start ins before (by omega)
        recorded (by omega)
      refine ⟨ins, recordedAfter, rfl, overlapped.1, ?_⟩
      exact overlapped.2.imp_right (writeCode_boundary passes _).mpr

/-- After a careful patch every branch to an old boundary meets a boundary. -/
theorem targets_writeCode
    (passes : Passes v heap runtime.table start patch checkTerminate tary)
    (careful : CarefulPatch v runtime heap record start patch)
    {target source : Nat}
    (wasBoundary : runtime.table target = UInt8.ofNat DCV)
    (branches : BranchesTo v (runtime.writeCode start patch tary) heap
      (record.write start patch.length (instructions v patch)) source target) :
    (runtime.writeCode start patch tary).table target = UInt8.ofNat DCV := by
  obtain ⟨⟨holds, isMarked, isBoundary⟩, ins, width, recorded, direct, computed⟩ :=
    branches
  by_cases inPatch : start ≤ source ∧ source < start + patch.length
  · obtain ⟨piece, member, rfl, rfl⟩ :=
      CodeRecord.write_some recorded inPatch.1 inPatch.2
    rw [writeCode_boundary passes, PatchBoundary]
    split
    next intoPatch =>
      exact careful.own target piece width intoPatch.1 intoPatch.2 wasBoundary
        member isMarked direct computed
    next => exact wasBoundary
  · have outside : source < start ∨ start + patch.length ≤ source := by omega
    rw [writeCode_boundary passes, PatchBoundary]
    split
    next intoPatch =>
      rw [writeCode_table passes outside] at isBoundary
      rw [CodeRecord.write_outside outside] at recorded
      exact careful.targets target source ins width intoPatch.1 intoPatch.2
        wasBoundary outside ⟨holds, isMarked, isBoundary⟩ recorded direct computed
    next => exact wasBoundary

/-- A heap that a replacement kept well formed was patched with care. -/
theorem carefulPatch_of_keeps
    (passes : Passes v heap runtime.table start patch checkTerminate tary)
    (wellFormed : WellFormedCode v (runtime.writeCode start patch tary) heap
      (record.write start patch.length (instructions v patch)))
    (targets : ∀ target source : Nat,
      runtime.table target = UInt8.ofNat DCV →
      BranchesTo v (runtime.writeCode start patch tary) heap
        (record.write start patch.length (instructions v patch)) source
        target →
      (runtime.writeCode start patch tary).table target = UInt8.ofNat DCV)
    (ids : ∀ sym ∈ heap.funcsyms ++ heap.rai,
      start ≤ heap.baseAddr + sym.offset →
      heap.baseAddr + sym.offset < start + patch.length →
        (runtime.writeCode start patch tary).table.load64
            (heap.baseAddr + sym.offset) =
          runtime.table.load64 (heap.baseAddr + sym.offset)) :
    CarefulPatch v runtime heap record start patch := by
  have verified := passes.cut
  have ownBoundary : ∀ piece ∈ instructions v patch,
      marked heap.codeDataBitmap (start + piece.start - heap.baseAddr) = true →
        Boundary heap (runtime.writeCode start patch tary).table
          (start + piece.start) := by
    intro piece member isMarked
    have placed : (piece.at start).In v (runtime.writeCode start patch tary).image
        heap := passes.piece_in member
    have within := verified.tiles.inside member
    refine ⟨⟨placed.low, placed.nonempty.trans_le placed.high⟩, isMarked, ?_⟩
    exact (passes.boundary_iff (by omega) (by omega)).mpr ⟨piece, member, rfl⟩
  have keptBoundary : ∀ {addr}, addr < start ∨ start + patch.length ≤ addr →
      Boundary heap runtime.table addr →
        Boundary heap (runtime.writeCode start patch tary).table addr := by
    rintro addr outside ⟨holds, isMarked, isBoundary⟩
    refine ⟨holds, isMarked, ?_⟩
    rw [writeCode_table passes outside]
    exact isBoundary
  refine ⟨?_, ?_, ?_, ?_, ?_⟩
  · intro source ins before earlier recorded _
    obtain ⟨own, ownRecorded, _, inside, follows⟩ :=
      wellFormed source (keptBoundary (Or.inl earlier) before)
    rw [CodeRecord.write_outside (Or.inl earlier)] at ownRecorded
    cases ownRecorded.symm.trans recorded
    exact ⟨inside, follows.imp_right (writeCode_boundary passes _).mp⟩
  · intro ins isLast isMarked
    have member := List.mem_of_getLast? isLast
    obtain ⟨own, recorded, _, _, follows⟩ :=
      wellFormed _ (ownBoundary ins member isMarked)
    rw [CodeRecord.write_piece verified.tiles member] at recorded
    cases recorded
    refine follows.imp_right fun next => ?_
    have stops : (ins.at start).stop = start + patch.length := by
      rw [Instruction.at, verified.tiles.last isLast]
    rw [stops, writeCode_table passes (Or.inr (Nat.le_refl _))] at next
    exact next
  · intro target source ins width above below wasBoundary outside before
      recorded direct computed
    have branches : BranchesTo v (runtime.writeCode start patch tary) heap
        (record.write start patch.length (instructions v patch)) source
        target := by
      refine ⟨keptBoundary outside before, ins, width, ?_, direct, computed⟩
      rw [CodeRecord.write_outside outside]
      exact recorded
    exact (passes.boundary_iff above below).mp
      (targets target source wasBoundary branches)
  · intro target piece width above below wasBoundary member isMarked direct
      computed
    have branches : BranchesTo v (runtime.writeCode start patch tary) heap
        (record.write start patch.length (instructions v patch))
        (start + piece.start) target :=
      ⟨ownBoundary piece member isMarked, piece.at start, width,
        CodeRecord.write_piece verified.tiles member, direct, computed⟩
    exact (passes.boundary_iff above below).mp
      (targets target _ wasBoundary branches)
  · intro sym listed k small above below
    have sameWord := ids sym listed above (by omega)
    have sameByte : (runtime.writeCode start patch tary).table
        (heap.baseAddr + sym.offset + k) =
          runtime.table (heap.baseAddr + sym.offset + k) := by
      refine UInt8.toNat_inj.mp ?_
      rw [byte_eq_load _ _ 8 small, byte_eq_load _ _ 8 small]
      exact congrArg (· / 256 ^ k % 256) sameWord
    rw [← sameByte, writeCode_byte passes (by omega) below]

/--
For automata that are laid out as the verifier expects, its check of targets
covers the branches of the patch itself.
-/
theorem Passes.own_targets
    (passes : Passes v heap runtime.table start patch checkTerminate tary)
    (fits : v.Fits heap) {target width : Nat} {piece : Instruction}
    (above : start ≤ target) (below : target < start + patch.length)
    (member : piece ∈ instructions v patch)
    (direct : DirectClass v piece.state width)
    (computed : branchTargetIn (runtime.image.storeBytes start patch)
      (start + piece.stop) width = target) :
    ∃ other ∈ instructions v patch, start + other.start = target := by
  obtain ⟨meant, checked, _, meets⟩ := passes.target fits member direct
  have same : (meant : Int) = target := checked.symm.trans computed
  rw [Int.ofNat.inj same] at meets
  exact (passes.boundary_iff above below).mp meets

/-- The ids of a careful patch are in the table as before. -/
theorem ids_writeCode
    (passes : Passes v heap runtime.table start patch checkTerminate tary)
    (careful : CarefulPatch v runtime heap record start patch) {sym : Symbol}
    (listed : sym ∈ heap.funcsyms ++ heap.rai)
    (above : start ≤ heap.baseAddr + sym.offset) :
    (runtime.writeCode start patch tary).table.load64
        (heap.baseAddr + sym.offset) =
      runtime.table.load64 (heap.baseAddr + sym.offset) := by
  refine load_congr fun k small => ?_
  by_cases below : heap.baseAddr + sym.offset + k < start + patch.length
  · rw [writeCode_byte passes (by omega) below,
      careful.ids sym listed k small above below]
  · exact writeCode_table passes (by omega)

/--
A replacement that returns keeps the heap well formed, the boundaries that are
still branched to and the ids, exactly when it replaces nothing or its patch is
careful.
-/
theorem replacement_keeps_iff
    {index dst extra : Nat} {handle : Option Nat} {bufferAddr : Nat}
    {src : List UInt8} {after : Runtime}
    (named : getCodeHeap handle runtime.modules = .ok (index, heap))
    (hasVerifier : heap.verifier = some v)
    (wellFormed : WellFormedCode v runtime heap record)
    (isPatch : replacePatch runtime heap dst src extra = some (start, patch))
    (returned : codeHeapFill bufferAddr handle dst src extra runtime =
      .ok after) :
    ReplaceKeeps v heap record start patch runtime after ↔
      (whichArea heap.codeDataBitmap (start - heap.baseAddr) patch.length =
          .code →
        CarefulPatch v runtime heap record start patch) := by
  obtain ⟨own, ownHeap, ownNamed, effect⟩ := codeHeapFill_effect returned
  cases ownNamed.symm.trans named
  cases effect with
  | unchanged _ skipped =>
      have notCode := skipped start patch isPatch
      have skips : record.replace v heap start patch = record := if_neg notCode
      refine ⟨fun _ isCode => absurd isCode notCode, fun _ => ?_⟩
      refine ⟨?_, fun target source boundary _ => boundary, fun _ _ _ _ => rfl⟩
      rw [skips]
      exact wellFormed
  | data asData area =>
      simp [replacePatch, asData, area] at isPatch
  | installed installs =>
      rw [installedCode_of_patch isPatch] at installs
      cases installs
  | @replaced w other otherPatch tary samePatch area boundary passes =>
      cases isPatch.symm.trans samePatch
      cases hasVerifier.symm.trans passes.hasVerifier
      have writes : record.replace v heap start patch =
          record.write start patch.length (instructions v patch) :=
        if_pos area
      constructor
      · rintro ⟨keptCode, keptTargets, keptIds⟩ _
        rw [writes] at keptCode keptTargets
        exact carefulPatch_of_keeps passes keptCode keptTargets keptIds
      · intro careful
        refine ⟨?_, fun target source wasBoundary branches => ?_,
          fun sym listed above _ => ids_writeCode passes (careful area)
            listed above⟩
        · rw [writes]
          exact wellFormed_writeCode passes (careful area) wellFormed
        · rw [writes] at branches
          exact targets_writeCode passes (careful area) wasBoundary branches

end Replacement

section Examples

/-- An automaton that accepts one trap byte, a terminator. -/
def trapVerifier : Verifier :=
  spreadVerifier fun index => if index = 13 * 256 + 0xcc then 12 else 0

/-- A heap with sixteen bytes of code. -/
def trapHeap (funcsyms : List Symbol) : CodeModule :=
  { exampleHeap trapVerifier with
    codeDataBitmap := setCode (fun _ => 0) 0 16
    funcsyms := funcsyms }

/-- A table with a boundary and an id. -/
def trapTable : ByteMem :=
  (ByteMem.store64 (fun _ => 0) 0x400008 0x101).storeByte 0x400000
    (UInt8.ofNat DCV)

/-- The code starts with a trap, and a word of the table holds an id. -/
def trapRuntime (funcsyms : List Symbol) : Runtime :=
  { Runtime.boot with
    modules := [trapHeap funcsyms]
    image := fun _ => 0xcc
    table := trapTable }

/-- The record of that trap. -/
def trapRecord : CodeRecord := fun addr =>
  if addr = 0x400000 then some ⟨0x400000, 0x400001, 12⟩ else none

theorem fits_trapVerifier (funcsyms : List Symbol) :
    trapVerifier.Fits (trapHeap funcsyms) where
  layout := layout_spreadVerifier _
  long := longBranches_spreadVerifier fun index => by
    split <;> decide
  inside := by
    change 0x400000 + 0x1000 ≤ fourGB
    decide

/-- The only boundary of the heap is the trap. -/
private theorem boundary_trap
    {funcsyms : List Symbol} {addr : Nat}
    (boundary : Boundary (trapHeap funcsyms) trapTable addr) :
    addr = 0x400000 := by
  obtain ⟨⟨low, _⟩, isMarked, isBoundary⟩ := boundary
  change 0x400000 ≤ addr at low
  change marked (setCode (fun _ => 0) 0 16) (addr - 0x400000) = true at isMarked
  rw [marked_setCode _ _ _ rfl] at isMarked
  rcases isMarked with never | within
  · simp [marked] at never
  · have others : ∀ k < 16, k ≠ 0 →
        trapTable (0x400000 + k) ≠ UInt8.ofNat DCV := by decide
    by_contra elsewhere
    refine others (addr - 0x400000) (by omega) (by omega) ?_
    rw [Nat.add_sub_cancel' low]
    exact isBoundary

theorem wellFormed_trap (funcsyms : List Symbol) :
    WellFormedCode trapVerifier (trapRuntime funcsyms) (trapHeap funcsyms)
      trapRecord := by
  intro addr boundary
  cases boundary_trap boundary
  refine ⟨_, rfl, rfl, ⟨Nat.le_refl 0x400000, by decide, ?_, ?_, by decide⟩,
    Or.inl (by decide)⟩
  · change 0x400001 ≤ 0x400000 + 0x1000
    decide
  · change dfaRun trapVerifier 13 (readImage (fun _ => 0xcc) 0x400000 1) = 12
    decide

/-- Replacing the code of a function takes its id from the table. -/
theorem replacement_loses_id :
    ¬ ∀ (v : Verifier) (runtime after : Runtime) (heap : CodeModule)
        (record : CodeRecord) (index start dst extra bufferAddr : Nat)
        (handle : Option Nat) (src patch : List UInt8),
      getCodeHeap handle runtime.modules = .ok (index, heap) →
      heap.verifier = some v → v.Fits heap →
      WellFormedCode v runtime heap record →
      replacePatch runtime heap dst src extra = some (start, patch) →
      codeHeapFill bufferAddr handle dst src extra runtime = .ok after →
        ReplaceKeeps v heap record start patch runtime after := by
  intro keeps
  have returned : codeHeapFill 0 (some 0) 0x400000 (List.replicate 16 0xcc) 17
      (trapRuntime [⟨Name.ofPtr 16, 8⟩]) =
        .ok ((trapRuntime [⟨Name.ofPtr 16, 8⟩]).writeCode 0x400000
          (List.replicate 16 0xcc) (List.replicate 16 (UInt8.ofNat DCV))) := by
    rfl
  have kept := keeps trapVerifier _ _ _ trapRecord 0 _ _ _ _ _ _ _ rfl rfl
    (fits_trapVerifier _) (wellFormed_trap _) rfl returned
  have same := kept.ids ⟨Name.ofPtr 16, 8⟩ (by decide) (by decide) (by decide)
  exact absurd same (by decide)

/-- Replacing the trap by itself, where no id stands in the range. -/
theorem replacement_keeps_iff_trap :
    ∃ after, codeHeapFill 0 (some 0) 0x400000 [0xcc] 17 (trapRuntime []) =
        .ok after ∧
      ReplaceKeeps trapVerifier (trapHeap []) trapRecord 0x400000 [0xcc]
        (trapRuntime []) after := by
  have returned : codeHeapFill 0 (some 0) 0x400000 [0xcc] 17 (trapRuntime []) =
      .ok ((trapRuntime []).writeCode 0x400000 [0xcc] [UInt8.ofNat DCV]) := by
    rfl
  refine ⟨_, returned, ?_⟩
  refine (replacement_keeps_iff rfl rfl (wellFormed_trap _) rfl returned).mpr
    fun _ => ?_
  refine ⟨?_, ?_, ?_, ?_, ?_⟩
  · intro source ins boundary earlier
    exact absurd earlier (by rw [boundary_trap boundary]; decide)
  · intro ins isLast _
    cases isLast
    exact Or.inl (by decide)
  · intro target source ins width _ _ _ outside boundary
    rw [boundary_trap boundary] at outside
    exact absurd outside (by decide)
  · intro target piece width _ _ _ member _ direct
    cases List.mem_singleton.mp member
    exact absurd (direct_spreadVerifier direct).1 (by decide)
  · intro sym listed
    cases listed

end Examples

end Mcfi
