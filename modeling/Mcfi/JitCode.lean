import Mcfi.CodeBitmap
import Mcfi.JitVerifier

namespace Mcfi

open ByteMem Tiling

/-!
# The record of the instructions of a code heap

Neither the bitmap nor the table says how long an instruction is or where it
branches to, and the code keeps no record of it.  This module keeps one beside
the state: the instruction that the verifier found at each address, with what
filling does to it.
-/

section Images

variable {image : ByteMem} {addr dst len : Nat} {bytes : List UInt8}

/-- Reading depends on the bytes of the range only. -/
theorem readImage_congr
    {other : ByteMem} (same : ∀ k, addr ≤ k → k < addr + len →
      image k = other k) :
    readImage image addr len = readImage other addr len := by
  refine List.map_congr_left fun k member => ?_
  rw [List.mem_range] at member
  exact same (addr + k) (by omega) (by omega)

/-- Reading inside what was written reads the written bytes. -/
theorem readImage_storeBytes
    (above : dst ≤ addr) (below : addr + len ≤ dst + bytes.length) :
    readImage (image.storeBytes dst bytes) addr len =
      (bytes.drop (addr - dst)).take len := by
  refine List.ext_getElem? fun k => ?_
  rw [List.getElem?_take, List.getElem?_drop]
  split
  next inside =>
    have written := storeBytes_inside image
      (by omega : dst ≤ addr + k) (by omega : addr + k < dst + bytes.length)
    rw [readImage, List.getElem?_map, List.getElem?_range inside,
      Option.map_some, written]
    congr 1
    omega
  next outside =>
    rw [List.getElem?_eq_none]
    rw [readImage, List.length_map, List.length_range]
    omega

/-- A number in memory is the number of its bytes. -/
theorem load_eq_foldr (image : ByteMem) (addr width : Nat) :
    image.load addr width =
      (readImage image addr width).foldr
        (fun byte acc => byte.toNat + 256 * acc) 0 := by
  induction width generalizing addr with
  | zero => rfl
  | succ width inductionHypothesis =>
      have tail : readImage image addr (width + 1) =
          image addr :: readImage image (addr + 1) width := by
        rw [readImage, List.range_succ_eq_map, List.map_cons, List.map_map]
        congr 1
        refine List.map_congr_left fun k _ => ?_
        simp only [Function.comp_apply]
        congr 1
        omega
      rw [load, inductionHypothesis, tail, List.foldr_cons]

/-- The target of the direct branch that ends at an address. -/
def branchTargetIn (image : ByteMem) (stop width : Nat) : Int :=
  stop + signed (8 * width) (image.load (stop - width) width)

/-- A target depends on the bytes of the offset only. -/
theorem branchTargetIn_congr
    {other : ByteMem} {stop width : Nat} (short : width ≤ stop)
    (same : ∀ k, stop - width ≤ k → k < stop → image k = other k) :
    branchTargetIn image stop width = branchTargetIn other stop width := by
  have bytesSame : image.load (stop - width) width =
      other.load (stop - width) width := by
    refine load_congr fun k below => same _ ?_ ?_ <;> omega
  rw [branchTargetIn, branchTargetIn, bytesSame]

/-- The target in written code is the one that the verifier computes. -/
theorem branchTargetIn_storeBytes
    {stop width : Nat} (inside : width ≤ stop) (below : stop ≤ bytes.length) :
    branchTargetIn (image.storeBytes dst bytes) (dst + stop) width =
      branchTarget bytes dst stop width := by
  have field : readImage (image.storeBytes dst bytes) (dst + stop - width)
      width = (bytes.drop (stop - width)).take width := by
    rw [readImage_storeBytes (by omega) (by omega)]
    congr 2
    omega
  rw [branchTargetIn, branchTarget, load_eq_foldr, field]
  simp

end Images

section Records

/-- The instruction that was found at each address. -/
abbrev CodeRecord := Nat → Option Instruction

/-- An instruction moved from its buffer to an address. -/
def Instruction.at (ins : Instruction) (base : Nat) : Instruction :=
  { ins with start := base + ins.start, stop := base + ins.stop }

/-- The instruction stands in the heap and is accepted there. -/
structure Instruction.In (ins : Instruction) (v : Verifier) (image : ByteMem)
    (heap : CodeModule) : Prop where
  low : heap.baseAddr ≤ ins.start
  nonempty : ins.start < ins.stop
  high : ins.stop ≤ heap.baseAddr + heap.sz
  run : dfaRun v v.start (readImage image ins.start (ins.stop - ins.start)) =
    ins.state
  accepting : accepting v ins.state = true

/-- The record after code was written and verified. -/
def CodeRecord.write (record : CodeRecord) (dst len : Nat)
    (pieces : List Instruction) : CodeRecord :=
  fun addr =>
    if dst ≤ addr ∧ addr < dst + len then
      (pieces.find? fun ins => dst + ins.start == addr).map (·.at dst)
    else
      record addr

/-- The record after a replacement, which is skipped outside code. -/
def CodeRecord.replace (record : CodeRecord) (v : Verifier)
    (heap : CodeModule) (start : Nat) (patch : List UInt8) : CodeRecord :=
  if whichArea heap.codeDataBitmap (start - heap.baseAddr) patch.length =
      .code then
    record.write start patch.length (instructions v patch)
  else
    record

variable {record : CodeRecord} {dst len addr : Nat} {pieces : List Instruction}

theorem CodeRecord.write_outside
    (outside : addr < dst ∨ dst + len ≤ addr) :
    record.write dst len pieces addr = record addr := by
  rw [CodeRecord.write, if_neg (by omega)]

/-- The record of a written address is a piece of the written code. -/
theorem CodeRecord.write_some
    {ins : Instruction} (found : record.write dst len pieces addr = some ins)
    (above : dst ≤ addr) (below : addr < dst + len) :
    ∃ piece ∈ pieces, dst + piece.start = addr ∧ ins = piece.at dst := by
  rw [CodeRecord.write, if_pos ⟨above, below⟩, Option.map_eq_some_iff] at found
  obtain ⟨piece, isFound, rfl⟩ := found
  have starts : dst + piece.start = addr := by
    simpa using List.find?_some isFound
  exact ⟨piece, List.mem_of_find?_eq_some isFound, starts, rfl⟩

/-- Every piece of written code is in the record. -/
theorem CodeRecord.write_piece
    (tiles : Tiles Instruction.start Instruction.stop 0 len pieces)
    {piece : Instruction} (member : piece ∈ pieces) :
    record.write dst len pieces (dst + piece.start) = some (piece.at dst) := by
  have inside := tiles.inside member
  rw [CodeRecord.write, if_pos (by omega), Option.map_eq_some_iff]
  refine ⟨piece, ?_, rfl⟩
  cases found : pieces.find? fun ins => dst + ins.start == dst + piece.start with
  | none =>
      have never := List.find?_eq_none.mp found piece member
      simp at never
  | some other =>
      have starts : dst + other.start = dst + piece.start := by
        simpa using List.find?_some found
      rw [tiles.unique (List.mem_of_find?_eq_some found) member (by omega)]

end Records

section Effects

/-- The code that a call of `code_heap_fill` installs. -/
def installedCode (runtime : Runtime) (dst : Nat) (src : List UInt8)
    (extra : Nat) : Option (List UInt8) :=
  let flags := fillFlags extra
  if flags.code && flags.copy then
    some src
  else if flags.code && flags.verify then
    some (readImage runtime.image dst src.length)
  else
    none

/-- The patch that a call of `code_heap_fill` replaces code with. -/
def replacePatch (runtime : Runtime) (heap : CodeModule) (dst : Nat)
    (src : List UInt8) (extra : Nat) : Option (Nat × List UInt8) :=
  let flags := fillFlags extra
  if flags.code then
    if !flags.copy && !flags.verify && flags.replace then some (dst, src)
    else none
  else if whichArea heap.codeDataBitmap (dst - heap.baseAddr) src.length =
      .code then
    (backToBoundary runtime.table (dst - heap.baseAddr) dst).map fun start =>
      (start, readImage runtime.image start (dst - start) ++ src)
  else
    none

/-- The runtime after code and its boundaries were written. -/
def Runtime.writeCode (runtime : Runtime) (dst : Nat) (code tary : List UInt8) :
    Runtime :=
  { runtime with
    image := runtime.image.storeBytes dst code
    table := runtime.table.storeBytes dst tary }

/-- Code that the verifier lets through at an address of a heap. -/
structure Passes (v : Verifier) (heap : CodeModule) (table : ByteMem)
    (dst : Nat) (code : List UInt8) (checkTerminate : Bool)
    (tary : List UInt8) : Prop where
  hasVerifier : heap.verifier = some v
  low : heap.baseAddr ≤ dst
  high : dst + code.length ≤ heap.baseAddr + heap.sz
  returned : ∃ bufferAddr, verifyJittedCode v table heap code bufferAddr dst
    checkTerminate = .ok tary

/-- What a returned `code_heap_fill` has done to its heap. -/
inductive FillEffect (index : Nat) (heap : CodeModule) (dst : Nat)
    (src : List UInt8) (extra : Nat) (before : Runtime) : Runtime → Prop where
  | unchanged
      (notInstalled : installedCode before dst src extra = none)
      (skipped : ∀ start patch,
        replacePatch before heap dst src extra = some (start, patch) →
          whichArea heap.codeDataBitmap (start - heap.baseAddr)
            patch.length ≠ .code) :
      FillEffect index heap dst src extra before before
  | data
      (asData : (fillFlags extra).code = false)
      (area : whichArea heap.codeDataBitmap (dst - heap.baseAddr) src.length =
        .data)
      (low : heap.baseAddr ≤ dst)
      (high : dst + src.length ≤ heap.baseAddr + heap.sz) :
      FillEffect index heap dst src extra before
        { before with image := before.image.storeBytes dst src }
  | replaced
      {v : Verifier} {start : Nat} {patch tary : List UInt8}
      (isPatch : replacePatch before heap dst src extra = some (start, patch))
      (area : whichArea heap.codeDataBitmap (start - heap.baseAddr)
        patch.length = .code)
      (boundary : before.table start = UInt8.ofNat DCV)
      (passes : Passes v heap before.table start patch
        (whichArea heap.codeDataBitmap
          (start - heap.baseAddr + patch.length) 1 ≠ .code) tary) :
      FillEffect index heap dst src extra before
        (before.writeCode start patch tary)
  | installed
      {v : Verifier} {code tary : List UInt8}
      (installs : installedCode before dst src extra = some code)
      (aligned : dst % 8 = 0) (sameLength : code.length = src.length)
      (passes : Passes v heap before.table dst code true tary) :
      FillEffect index heap dst src extra before
        ((before.writeCode dst code tary).setModule index
          { heap with
            codeDataBitmap := setCode heap.codeDataBitmap
              (dst - heap.baseAddr) src.length })

/-- A call either installs code or replaces it. -/
theorem installedCode_of_patch
    {runtime : Runtime} {heap : CodeModule} {dst extra : Nat}
    {src : List UInt8} {found : Nat × List UInt8}
    (isPatch : replacePatch runtime heap dst src extra = some found) :
    installedCode runtime dst src extra = none := by
  unfold replacePatch at isPatch
  unfold installedCode
  cases asCode : (fillFlags extra).code <;>
    cases copies : (fillFlags extra).copy <;>
    cases verifies : (fillFlags extra).verify <;>
    simp [asCode, copies, verifies] at isPatch ⊢

/-- Writing what is there changes nothing. -/
theorem storeBytes_readImage (image : ByteMem) (addr len : Nat) :
    image.storeBytes addr (readImage image addr len) = image := by
  funext query
  by_cases inside : addr ≤ query ∧ query < addr + len
  · have read : some (image.storeBytes addr (readImage image addr len) query) =
        (readImage image addr len)[query - addr]? :=
      storeBytes_inside image inside.1
        (by rw [readImage, List.length_map, List.length_range]; omega)
    rw [readImage, List.getElem?_map, List.getElem?_range (by omega),
      Option.map_some] at read
    rw [readImage, Option.some.inj read]
    congr 1
    omega
  · rw [storeBytes_outside]
    rw [readImage, List.length_map, List.length_range]
    omega

variable {index dst : Nat} {heap : CodeModule} {src : List UInt8}
  {extra : Nat} {before after : Runtime}

/-- What an installation has done, for the code that lies in the heap. -/
private theorem installCode_effect
    {image : ByteMem} {len : Nat} (low : heap.baseAddr ≤ dst)
    (high : dst + len ≤ heap.baseAddr + heap.sz)
    (returned : installCode index heap dst len { before with image := image } =
      .ok after) :
    ∃ v code tary, dst % 8 = 0 ∧ code = readImage image dst len ∧
      Passes v heap before.table dst code true tary ∧
      after =
        ({ before with
            image := image
            table := before.table.storeBytes dst tary } :
          Runtime).setModule index
          { heap with
            codeDataBitmap := setCode heap.codeDataBitmap
              (dst - heap.baseAddr) len } := by
  unfold installCode at returned
  rw [bind_eq_ok] at returned
  obtain ⟨_, aligned, returned⟩ := returned
  rw [check_eq_ok, beq_iff_eq] at aligned
  split at returned
  next => cases returned
  next v hasVerifier =>
    rw [bind_eq_ok] at returned
    obtain ⟨tary, verified, returned⟩ := returned
    cases returned
    refine ⟨v, _, tary, aligned, rfl, ⟨hasVerifier, low, ?_, dst, verified⟩, rfl⟩
    rw [readImage, List.length_map, List.length_range]
    exact high

/-- What a returned replacement has done. -/
private theorem replaceCode_effect
    {bufferAddr : Nat} {area : Area} {start : Nat} {patch : List UInt8}
    (low : heap.baseAddr ≤ start)
    (high : start + patch.length ≤ heap.baseAddr + heap.sz)
    (returned : replaceCode bufferAddr heap area start patch before =
      .ok after) :
    (area ≠ .code ∧ after = before) ∨
      ∃ v tary, area = .code ∧ before.table start = UInt8.ofNat DCV ∧
        Passes v heap before.table start patch
          (whichArea heap.codeDataBitmap
            (start - heap.baseAddr + patch.length) 1 ≠ .code) tary ∧
        after = before.writeCode start patch tary := by
  unfold replaceCode at returned
  split at returned
  next notCode =>
    cases returned
    exact Or.inl ⟨notCode, rfl⟩
  next isCode =>
    split at returned
    next => cases returned
    next boundary =>
      split at returned
      next => cases returned
      next v hasVerifier =>
        rw [bind_eq_ok] at returned
        obtain ⟨tary, verified, returned⟩ := returned
        cases returned
        exact Or.inr ⟨v, tary, not_not.mp isCode, not_not.mp boundary,
          ⟨hasVerifier, low, high, bufferAddr, verified⟩, rfl⟩

/-- A fill that is a replacement has the effect of one. -/
private theorem replaced_effect
    {bufferAddr start : Nat} {patch : List UInt8}
    (isPatch : replacePatch before heap dst src extra = some (start, patch))
    (low : heap.baseAddr ≤ start)
    (high : start + patch.length ≤ heap.baseAddr + heap.sz)
    (returned : replaceCode bufferAddr heap
      (whichArea heap.codeDataBitmap (start - heap.baseAddr) patch.length) start
      patch before = .ok after) :
    FillEffect index heap dst src extra before after := by
  rcases replaceCode_effect low high returned with
    ⟨notCode, rfl⟩ | ⟨v, tary, isCode, boundary, passes, rfl⟩
  · refine .unchanged (installedCode_of_patch isPatch)
      fun other otherPatch same => ?_
    cases isPatch.symm.trans same
    exact notCode
  · exact .replaced isPatch isCode boundary passes

/-- The effect of a returned `code_heap_fill`. -/
theorem codeHeapFill_effect
    {bufferAddr : Nat} {handle : Option Nat}
    (returned : codeHeapFill bufferAddr handle dst src extra before =
      .ok after) :
    ∃ index heap, getCodeHeap handle before.modules = .ok (index, heap) ∧
      FillEffect index heap dst src extra before after := by
  unfold codeHeapFill at returned
  rw [bind_eq_ok] at returned
  obtain ⟨⟨index, heap⟩, named, returned⟩ := returned
  refine ⟨index, heap, named, ?_⟩
  rw [bind_eq_ok] at returned
  obtain ⟨_, fits, returned⟩ := returned
  obtain ⟨low, high⟩ := checkFill_ok fits
  simp only at returned
  split at returned
  next asCode =>
    unfold fillCode at returned
    simp only at returned
    split at returned
    next copies =>
      rw [bind_eq_ok] at returned
      obtain ⟨_, _, returned⟩ := returned
      obtain ⟨v, code, tary, aligned, codeIs, passes, rfl⟩ :=
        installCode_effect low high returned
      have copied : code = src := by
        rw [codeIs, readImage_storeBytes (Nat.le_refl _) (Nat.le_refl _),
          Nat.sub_self, List.drop_zero, List.take_length]
      rw [copied] at passes
      refine .installed ?_ aligned rfl passes
      simp [installedCode, asCode, copies]
    next notCopied =>
      split at returned
      next verifies =>
        obtain ⟨v, code, tary, aligned, codeIs, passes, rfl⟩ :=
          installCode_effect low high returned
        have lengthIs : code.length = src.length := by
          rw [codeIs, readImage, List.length_map, List.length_range]
        have same : before.image.storeBytes dst code = before.image := by
          rw [codeIs, storeBytes_readImage]
        have installs : installedCode before dst src extra = some code := by
          simp [installedCode, asCode, notCopied, verifies, codeIs]
        have effect : FillEffect index heap dst src extra before _ :=
          .installed installs aligned lengthIs passes
        rw [Runtime.writeCode, same] at effect
        exact effect
      next notVerified =>
        split at returned
        next replaces =>
          refine replaced_effect ?_ low high returned
          simp [replacePatch, asCode, notCopied, notVerified, replaces]
        next notReplaced =>
          cases returned
          refine .unchanged ?_ fun start patch isPatch => ?_
          · simp [installedCode, asCode, notCopied, notVerified]
          · simp [replacePatch, asCode, notReplaced] at isPatch
  next asData =>
    split at returned
    next => cases returned
    next area =>
      split at returned
      next => cases returned
      next start walk =>
        rw [bind_eq_ok] at returned
        obtain ⟨_, fitsAgain, returned⟩ := returned
        obtain ⟨lowAgain, highAgain⟩ := checkFill_ok fitsAgain
        have flags : (fillFlags 17).copy = false ∧
            (fillFlags 17).verify = false ∧ (fillFlags 17).replace = true := by
          decide
        simp only [fillCode, flags, Bool.false_eq_true, if_false, if_true]
          at returned
        refine replaced_effect ?_ lowAgain highAgain returned
        simp [replacePatch, asData, area, walk]
    next area =>
      cases returned
      exact .data (Bool.eq_false_iff.mpr asData) area low high

end Effects

section Written

variable {v : Verifier} {heap : CodeModule} {image table : ByteMem} {dst : Nat}
  {code tary : List UInt8} {checkTerminate : Bool}

/-- The layout of a verifier and its heap that `verify_jitted_code` relies on. -/
structure Verifier.Fits (v : Verifier) (heap : CodeModule) : Prop where
  layout : v.Layout
  long : v.LongBranches
  inside : heap.baseAddr + heap.sz ≤ fourGB

/-- The verifier cuts code that passes into instructions. -/
theorem Passes.cut
    (passes : Passes v heap table dst code checkTerminate tary) :
    CutCode v code tary (instructions v code) := by
  obtain ⟨bufferAddr, returned⟩ := passes.returned
  exact cutCode_of_returned returned

/-- The boundary bytes of code that passes. -/
theorem Passes.tary_eq
    (passes : Passes v heap table dst code checkTerminate tary) :
    tary = boundaryBytes code.length
      ((instructions v code).map Instruction.start) := by
  obtain ⟨bufferAddr, returned⟩ := passes.returned
  obtain ⟨scan, _, scanned, _, taryIs, _⟩ := verifyJittedCode_scan returned
  rw [taryIs, scanned.boundaries, List.nil_append]

/-- The boundaries of written code are the starts of its instructions. -/
theorem Passes.boundary_iff
    (passes : Passes v heap table dst code checkTerminate tary) {addr : Nat}
    (above : dst ≤ addr) (below : addr < dst + code.length) :
    table.storeBytes dst tary addr = UInt8.ofNat DCV ↔
      ∃ piece ∈ instructions v code, dst + piece.start = addr := by
  have read := storeBytes_inside table above
    (by rw [passes.cut.length]; exact below)
  have boundary := passes.cut.boundaries (addr - dst) (by omega)
  rw [← read, Option.some.injEq] at boundary
  rw [boundary]
  constructor
  · rintro ⟨piece, member, starts⟩
    exact ⟨piece, member, by omega⟩
  · rintro ⟨piece, member, starts⟩
    exact ⟨piece, member, by omega⟩

/-- The instructions of written code stand in the heap. -/
theorem Passes.piece_in
    (passes : Passes v heap table dst code checkTerminate tary)
    {piece : Instruction} (member : piece ∈ instructions v code) :
    (piece.at dst).In v (image.storeBytes dst code) heap := by
  have inside := passes.cut.tiles.inside member
  obtain ⟨run, accepted⟩ := passes.cut.accepted piece member
  have low := passes.low
  have high := passes.high
  refine ⟨?_, ?_, ?_, ?_, accepted⟩
  · simp only [Instruction.at]
    omega
  · simp only [Instruction.at]
    omega
  · simp only [Instruction.at]
    omega
  · simp only [Instruction.at]
    rw [readImage_storeBytes (by omega) (by omega), Nat.add_sub_cancel_left,
      Nat.add_sub_add_left]
    exact run

/-- Direct branches of accepted code are longer than their offsets. -/
theorem Instruction.In.long
    {ins : Instruction} {width : Nat} (inside : ins.In v image heap)
    (long : v.LongBranches) (direct : DirectClass v ins.state width) :
    ins.start + width < ins.stop := by
  have longer := long _ width (inside.run.symm ▸ direct)
  rw [readImage, List.length_map, List.length_range] at longer
  have nonempty := inside.nonempty
  omega

/-- The direct branches of written code meet boundaries of the heap. -/
theorem Passes.target
    (passes : Passes v heap table dst code checkTerminate tary)
    (fits : v.Fits heap) {piece : Instruction} {width : Nat}
    (member : piece ∈ instructions v code)
    (direct : DirectClass v piece.state width) :
    ∃ target : Nat,
      branchTargetIn (image.storeBytes dst code) (dst + piece.stop) width =
        target ∧
      heap.Holds target ∧
      table.storeBytes dst tary target = UInt8.ofNat DCV := by
  obtain ⟨bufferAddr, returned⟩ := passes.returned
  obtain ⟨scan, _, _, verified, _⟩ :=
    verifiedCode_of_returned fits.layout fits.inside passes.high returned
  have inside := verified.tiles.inside member
  obtain ⟨target, computed, holds, outside, within⟩ :=
    verified.targets piece member width direct
  have placed : (piece.at dst).In v (image.storeBytes dst code) heap :=
    passes.piece_in member
  have long := placed.long fits.long direct
  simp only [Instruction.at] at long
  refine ⟨target, ?_, holds, ?_⟩
  · rw [branchTargetIn_storeBytes (by omega) inside.2.2, computed]
  · by_cases here : dst ≤ target ∧ target < dst + code.length
    · have stored := within here.1 here.2
      rw [← storeBytes_inside table here.1 (by rw [verified.length]; exact here.2),
        Option.some.injEq] at stored
      exact stored
    · rw [storeBytes_outside _ (by rw [verified.length]; omega)]
      exact outside (by omega)

end Written

end Mcfi
