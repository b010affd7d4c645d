import Mcfi.ReplaceCode
import Mcfi.Lib.PartialCopy

namespace Mcfi

open ByteMem Tiling PartialCopy

/-!
# The stores of a replacement

`code_heap_fill` writes a patch while other threads may run it.  It means to put
a trap on every opcode first, then the tails of the instructions, then the
opcodes.  This module takes the stores one by one and asks what a thread that
arrives at an instruction between two of them may fetch.
-/

section Stores

/-- The comparison of a byte, which is a signed `char` there, with `DCV`. -/
def charIsDCV (byte : UInt8) : Bool :=
  byte.toInt8.toInt == DCV

/-- A copy of code in which `same_internal_boundary` writes traps at marks. -/
def withTraps (marks code : List UInt8) : List UInt8 :=
  List.zipWith (fun mark byte => if charIsDCV mark then UInt8.ofNat DCV else byte) marks code

/--
`same_internal_boundary`: whether the boundaries are the same, and both copies of
the code with the traps.
-/
def sameInternalBoundary (oldTary tary safeOldCode safeCode : List UInt8) :
    Bool × List UInt8 × List UInt8 :=
  (oldTary == tary, withTraps oldTary safeOldCode, withTraps tary safeCode)

/-- One store. -/
structure Store where
  addr : Nat
  bytes : List UInt8

/-- The image after a list of stores. -/
def applyStores (image : ByteMem) (stores : List Store) : ByteMem :=
  stores.foldl (fun image store => image.storeBytes store.addr store.bytes) image

/-- `memcpy` of the runtime, which copies byte by byte. -/
def memcpyStores (dst : Nat) : List UInt8 → List Store
  | [] => []
  | byte :: rest => ⟨dst, [byte]⟩ :: memcpyStores (dst + 1) rest

/--
The stores of a replacement to the code.  `safe_old_code` is the buffer of the
new code itself.
-/
def replaceStores (image : ByteMem) (oldTary tary : List UInt8) (dst : Nat)
    (src : List UInt8) : List Store :=
  let (same, code, safeCode) := sameInternalBoundary oldTary tary src src
  let aligned := dst / 8 * 8
  if same then
    if dst + src.length ≤ aligned + 8 then
      let word := readImage image aligned 8
      [⟨aligned, word.take (dst - aligned) ++ code ++
        word.drop (dst - aligned + src.length)⟩]
    else
      memcpyStores dst safeCode ++ memcpyStores dst code
  else
    memcpyStores (dst + 1) (code.drop 1) ++ [⟨dst, code.take 1⟩]

/-- No `char` is `DCV`. -/
theorem charIsDCV_eq (byte : UInt8) : charIsDCV byte = false := by
  have below := Int8.toInt_lt byte.toInt8
  rw [charIsDCV, beq_eq_false_iff_ne]
  change byte.toInt8.toInt ≠ 244
  omega

/-- No copy gets a trap. -/
theorem withTraps_eq {marks code : List UInt8} (length : marks.length = code.length) :
    withTraps marks code = code := by
  have plain : withTraps marks code = (marks.zip code).map Prod.snd := by
    rw [withTraps, List.map_zip_eq_zipWith]
    simp only [charIsDCV_eq, Bool.false_eq_true, if_false]
    rfl
  rw [plain, List.map_snd_zip (Nat.le_of_eq length.symm)]

/-- The first stores of a copy write the first bytes. -/
theorem applyStores_memcpy (image : ByteMem) (dst k : Nat) (src : List UInt8) :
    applyStores image ((memcpyStores dst src).take k) =
      image.storeBytes dst (src.take k) := by
  induction src generalizing image dst k with
  | nil =>
      rw [List.take_nil, storeBytes_nil]
      cases k <;> rfl
  | cons byte rest inductionHypothesis =>
      cases k with
      | zero => exact (storeBytes_nil image dst).symm
      | succ k =>
          have first : applyStores image ((memcpyStores dst (byte :: rest)).take (k + 1)) =
              applyStores (image.storeBytes dst [byte])
                ((memcpyStores (dst + 1) rest).take k) := by
            rfl
          rw [first, inductionHypothesis, List.take_succ_cons]
          exact (storeBytes_append image dst [byte] (rest.take k)).symm

theorem applyStores_append (image : ByteMem) (front back : List Store) :
    applyStores image (front ++ back) = applyStores (applyStores image front) back :=
  List.foldl_append

theorem length_memcpyStores (dst : Nat) (src : List UInt8) :
    (memcpyStores dst src).length = src.length := by
  induction src generalizing dst with
  | nil => rfl
  | cons byte rest inductionHypothesis =>
      rw [memcpyStores, List.length_cons, inductionHypothesis, List.length_cons]

/-- A whole copy. -/
theorem applyStores_copy (image : ByteMem) (dst : Nat) (src : List UInt8) :
    applyStores image (memcpyStores dst src) = image.storeBytes dst src := by
  have all := applyStores_memcpy image dst src.length src
  rwa [List.take_length, List.take_of_length_le (length_memcpyStores dst src).le] at all

/-- A copy that has come to a byte of the range is a content being copied. -/
theorem storeBytes_take (image : ByteMem) (start : Nat) (patch : List UInt8) {skip k : Nat}
    (within : skip + k ≤ patch.length) :
    image.storeBytes (start + skip) ((patch.drop skip).take k) =
      copied image (image.storeBytes start patch) (start + skip) (start + skip + k) := by
  have length : ((patch.drop skip).take k).length = k := by
    rw [List.length_take, List.length_drop]
    omega
  funext addr
  by_cases inside : start + skip ≤ addr ∧ addr < start + skip + k
  · rw [copied_written inside.1 inside.2]
    have part := storeBytes_inside image inside.1
      (by rw [length]; exact inside.2 : addr < start + skip + ((patch.drop skip).take k).length)
    have whole := storeBytes_inside image (by omega : start ≤ addr)
      (by omega : addr < start + patch.length)
    rw [List.getElem?_take_of_lt (by omega), List.getElem?_drop] at part
    refine Option.some.inj (part.trans (Eq.trans ?_ whole.symm))
    congr 1
    omega
  · rw [copied_kept (by omega), storeBytes_outside image (by omega)]

end Stores

section Statement

variable (v : Verifier)

/-- Where the old instruction at an address stops, if one starts there. -/
def oldStop (table : ByteMem) (record : CodeRecord) (addr : Nat) : Option Nat :=
  if table addr = UInt8.ofNat DCV then (record addr).map Instruction.stop else none

/-- Where the instruction of the patch at an address stops, if one starts there. -/
def patchStop (start : Nat) (patch : List UInt8) (addr : Nat) : Option Nat :=
  ((instructions v patch).find? fun ins => start + ins.start == addr).map fun ins =>
    start + ins.stop

/-- The boundaries of a patch. -/
def patchTary (patch : List UInt8) : List UInt8 :=
  boundaryBytes patch.length ((instructions v patch).map Instruction.start)

/-- The boundaries that the table has in a range. -/
def oldTary (table : ByteMem) (start : Nat) (patch : List UInt8) : List UInt8 :=
  readImage table start patch.length

/-- The stores that put a patch in its place. -/
def patchStores (runtime : Runtime) (start : Nat) (patch : List UInt8) : List Store :=
  replaceStores runtime.image (oldTary runtime.table start patch) (patchTary v patch) start
    patch

/--
At every address of the range of a patch where an old or a new instruction
starts, a thread fetches the whole old one, the whole new one or a trap.
-/
def Fetchable (record : CodeRecord) (runtime : Runtime) (start : Nat) (patch : List UInt8)
    (content : ByteMem) : Prop :=
  ∀ addr, start ≤ addr → addr < start + patch.length →
    oldStop runtime.table record addr ≠ none ∨ patchStop v start patch addr ≠ none →
      Whole (UInt8.ofNat DCV) runtime.image (runtime.image.storeBytes start patch) content
        addr (oldStop runtime.table record addr) (patchStop v start patch addr)

/--
Between any two stores of a replacement all instructions of its range can be
fetched, and the patch is there in the end.
-/
structure ReplacesSafely (record : CodeRecord) (before after : Runtime) (start : Nat)
    (patch : List UInt8) : Prop where
  stored : after.image = applyStores before.image (patchStores v before start patch)
  fetchable : ∀ k, 0 < k → k < (patchStores v before start patch).length →
    Fetchable v record before start patch
      (applyStores before.image ((patchStores v before start patch).take k))
  final : readImage after.image start patch.length = patch

/-- The starts from an address on survive a copy from there. -/
def StartsSafe (record : CodeRecord) (runtime : Runtime) (start first : Nat)
    (patch : List UInt8) : Prop :=
  ∀ addr, first ≤ addr → addr < start + patch.length →
    SafeStart (UInt8.ofNat DCV) runtime.image (runtime.image.storeBytes start patch) first
      addr (oldStop runtime.table record addr) (patchStop v start patch addr)

/-- The first opcode, which is written last, goes with the bytes after it. -/
def HeadSafe (record : CodeRecord) (runtime : Runtime) (start : Nat)
    (patch : List UInt8) : Prop :=
  let new := runtime.image.storeBytes start patch
  ∀ oldEnd newEnd, oldStop runtime.table record start = some oldEnd →
    patchStop v start patch start = some newEnd →
      runtime.image start = UInt8.ofNat DCV ∨
        Agree runtime.image new (start + 1) oldEnd ∨
        (runtime.image start = new start ∧
          Untorn runtime.image new (start + 1) oldEnd newEnd)

/--
The patches that nobody can meet half-written: with the boundaries of the old
code, they lie in one aligned word or their instructions survive the copy; with
other boundaries, the first instruction survives a copy of the bytes after its
opcode and the others survive a copy from the second byte on.
-/
def SafePatch (record : CodeRecord) (runtime : Runtime) (start : Nat)
    (patch : List UInt8) : Prop :=
  if oldTary runtime.table start patch = patchTary v patch then
    start + patch.length ≤ start / 8 * 8 + 8 ∨ StartsSafe v record runtime start start patch
  else
    HeadSafe v record runtime start patch ∧
      StartsSafe v record runtime start (start + 1) patch

end Statement

section Copies

variable {v : Verifier} {runtime : Runtime} {start : Nat} {patch : List UInt8}

theorem length_oldTary (table : ByteMem) (start : Nat) (patch : List UInt8) :
    (oldTary table start patch).length = patch.length := by
  rw [oldTary, readImage, List.length_map, List.length_range]

theorem length_patchTary (v : Verifier) (patch : List UInt8) :
    (patchTary v patch).length = patch.length := by
  rw [patchTary, boundaryBytes, List.length_map, List.length_range]

/-- The stores of a patch, with the copies that the code really makes. -/
theorem patchStores_eq :
    patchStores v runtime start patch =
      if oldTary runtime.table start patch = patchTary v patch then
        if start + patch.length ≤ start / 8 * 8 + 8 then
          [⟨start / 8 * 8, (readImage runtime.image (start / 8 * 8) 8).take
              (start - start / 8 * 8) ++ patch ++
            (readImage runtime.image (start / 8 * 8) 8).drop
              (start - start / 8 * 8 + patch.length)⟩]
        else
          memcpyStores start patch ++ memcpyStores start patch
      else
        memcpyStores (start + 1) (patch.drop 1) ++ [⟨start, patch.take 1⟩] := by
  simp only [patchStores, replaceStores, sameInternalBoundary,
    withTraps_eq (length_oldTary runtime.table start patch),
    withTraps_eq (length_patchTary v patch), beq_iff_eq]

/-- A patch with other boundaries has a byte. -/
theorem nonempty_of_boundaries
    (differ : oldTary runtime.table start patch ≠ patchTary v patch) : 0 < patch.length := by
  by_contra empty
  refine differ ?_
  rw [List.eq_nil_of_length_eq_zero ((length_oldTary _ _ _).trans (by omega)),
    List.eq_nil_of_length_eq_zero ((length_patchTary _ _).trans (by omega))]

/-- A word of memory with a part replaced. -/
private theorem storeBytes_word {image : ByteMem} {aligned width : Nat}
    (above : aligned ≤ start) (below : start + patch.length ≤ aligned + width) :
    image.storeBytes aligned ((readImage image aligned width).take (start - aligned) ++
        patch ++ (readImage image aligned width).drop (start - aligned + patch.length)) =
      image.storeBytes start patch := by
  funext addr
  simp only [storeBytes, readImage, List.getD_eq_getElem?_getD]
  grind

/-- All stores of a patch together write the patch. -/
theorem applyStores_patchStores :
    applyStores runtime.image (patchStores v runtime start patch) =
      runtime.image.storeBytes start patch := by
  rw [patchStores_eq]
  split
  next =>
    split
    next within =>
      change runtime.image.storeBytes (start / 8 * 8) _ = _
      exact storeBytes_word (Nat.div_mul_le_self start 8) within
    next =>
      have again := storeBytes_again runtime.image start patch.length patch
      rw [List.take_length] at again
      rw [applyStores_append, applyStores_copy, applyStores_copy, again]
  next differ =>
    have nonempty := nonempty_of_boundaries differ
    obtain ⟨opcode, rest, rfl⟩ := List.exists_cons_of_length_pos nonempty
    rw [applyStores_append, applyStores_copy]
    change (runtime.image.storeBytes (start + 1) rest).storeBytes start [opcode] = _
    rw [storeBytes_comm _ (Or.inr (Nat.le_refl (start + 1)))]
    exact (storeBytes_append _ start [opcode] rest).symm

/-- With the boundaries of the old code, the copy goes over the whole patch. -/
theorem during_same {P : ByteMem → Prop}
    (same : oldTary runtime.table start patch = patchTary v patch)
    (several : ¬ start + patch.length ≤ start / 8 * 8 + 8) :
    (∀ k, 0 < k → k < (patchStores v runtime start patch).length →
        P (applyStores runtime.image ((patchStores v runtime start patch).take k))) ↔
      ∀ cut, start < cut → cut ≤ start + patch.length →
        P (copied runtime.image (runtime.image.storeBytes start patch) start cut) := by
  have stores : patchStores v runtime start patch =
      memcpyStores start patch ++ memcpyStores start patch := by
    rw [patchStores_eq, if_pos same, if_neg several]
  have first : ∀ k, k ≤ patch.length →
      applyStores runtime.image ((patchStores v runtime start patch).take k) =
        copied runtime.image (runtime.image.storeBytes start patch) start (start + k) := by
    intro k within
    rw [stores, List.take_append_of_le_length (by rw [length_memcpyStores]; exact within),
      applyStores_memcpy]
    exact storeBytes_take runtime.image start patch (by omega : 0 + k ≤ patch.length)
  constructor
  · intro during cut began within
    have state := during (cut - start) (by omega) (by
      rw [stores, List.length_append, length_memcpyStores]
      omega)
    rwa [first _ (by omega), Nat.add_sub_cancel' began.le] at state
  · intro cuts k began _
    rcases Nat.le_total k patch.length with copying | again
    · rw [first k copying]
      exact cuts (start + k) (by omega) (by omega)
    · -- the second copy writes what is already there
      have copiedOnce := first patch.length (Nat.le_refl _)
      rw [stores, List.take_left' (length_memcpyStores start patch), applyStores_copy] at copiedOnce
      rw [stores, ← Nat.add_sub_cancel' again,
        ← length_memcpyStores start patch, List.take_length_add_append, applyStores_append,
        applyStores_copy, applyStores_memcpy, storeBytes_again, copiedOnce]
      exact cuts _ (by omega) (Nat.le_refl _)

/-- With other boundaries, the copy starts at the second byte. -/
theorem during_different {P : ByteMem → Prop}
    (differ : oldTary runtime.table start patch ≠ patchTary v patch) :
    (∀ k, 0 < k → k < (patchStores v runtime start patch).length →
        P (applyStores runtime.image ((patchStores v runtime start patch).take k))) ↔
      ∀ cut, start + 1 < cut → cut ≤ start + patch.length →
        P (copied runtime.image (runtime.image.storeBytes start patch) (start + 1) cut) := by
  have nonempty := nonempty_of_boundaries differ
  have stores : patchStores v runtime start patch =
      memcpyStores (start + 1) (patch.drop 1) ++ [⟨start, patch.take 1⟩] := by
    rw [patchStores_eq, if_neg differ]
  have length : (memcpyStores (start + 1) (patch.drop 1)).length = patch.length - 1 := by
    rw [length_memcpyStores, List.length_drop]
  have first : ∀ k, k < patch.length →
      applyStores runtime.image ((patchStores v runtime start patch).take k) =
        copied runtime.image (runtime.image.storeBytes start patch) (start + 1)
          (start + 1 + k) := by
    intro k within
    rw [stores, List.take_append_of_le_length (by omega), applyStores_memcpy]
    exact storeBytes_take runtime.image start patch (by omega : 1 + k ≤ patch.length)
  have count : (patchStores v runtime start patch).length = patch.length := by
    rw [stores, List.length_append, length, List.length_singleton]
    omega
  rw [count]
  constructor
  · intro during cut began within
    have state := during (cut - (start + 1)) (by omega) (by omega)
    rwa [first _ (by omega), Nat.add_sub_cancel' began.le] at state
  · intro cuts k began within
    rw [first k within]
    exact cuts _ (by omega) (by omega)

end Copies

section Safety

variable {v : Verifier} {heap : CodeModule} {record : CodeRecord} {runtime : Runtime}
  {start : Nat} {patch tary : List UInt8} {checkTerminate : Bool}

/-- An instruction of a patch stops inside it, behind its start. -/
theorem patchStop_inside
    (passes : Passes v heap runtime.table start patch checkTerminate tary) {addr stop : Nat}
    (stops : patchStop v start patch addr = some stop) :
    addr < stop ∧ stop ≤ start + patch.length := by
  rw [patchStop, Option.map_eq_some_iff] at stops
  obtain ⟨ins, found, rfl⟩ := stops
  have starts : start + ins.start = addr := by
    simpa using List.find?_some found
  have inside := passes.cut.tiles.inside (List.mem_of_find?_eq_some found)
  omega

/-- A patch starts with an instruction. -/
theorem exists_patchStop
    (passes : Passes v heap runtime.table start patch checkTerminate tary)
    (nonempty : 0 < patch.length) : ∃ stop, patchStop v start patch start = some stop := by
  obtain ⟨ins, member, starts⟩ := passes.cut.tiles.head nonempty
  cases found : (instructions v patch).find? fun ins => start + ins.start == start with
  | none =>
      have never := List.find?_eq_none.mp found ins member
      simp [starts] at never
  | some other => exact ⟨start + other.stop, by rw [patchStop, found, Option.map_some]⟩

/-- The starts that a copy writes are readable throughout it if they are safe. -/
theorem startsSafe_iff {first : Nat}
    (passes : Passes v heap runtime.table start patch checkTerminate tary) :
    (∀ addr, first ≤ addr → addr < start + patch.length →
      oldStop runtime.table record addr ≠ none ∨ patchStop v start patch addr ≠ none →
        AlwaysWhole (UInt8.ofNat DCV) runtime.image (runtime.image.storeBytes start patch)
          first (start + patch.length) addr (oldStop runtime.table record addr)
          (patchStop v start patch addr)) ↔
      StartsSafe v record runtime start first patch := by
  refine forall_congr' fun addr => forall_congr' fun low => forall_congr' fun high => ?_
  have same : ∀ later, start + patch.length ≤ later →
      runtime.image later = runtime.image.storeBytes start patch later :=
    fun later behind => (storeBytes_outside _ (Or.inr behind)).symm
  have inside : ∀ stop, patchStop v start patch addr = some stop →
      stop ≤ start + patch.length := fun stop stops => (patchStop_inside passes stops).2
  by_cases starts : oldStop runtime.table record addr ≠ none ∨
      patchStop v start patch addr ≠ none
  · exact ⟨fun readable => (alwaysWhole_iff low high same inside starts).mp (readable starts),
      fun safe _ => (alwaysWhole_iff low high same inside starts).mpr safe⟩
  · refine iff_of_true (fun never => absurd never starts) ?_
    rw [not_or, not_not, not_not] at starts
    rw [starts.1, starts.2]
    trivial

/-- The first instruction is readable throughout a copy behind its opcode if it is safe. -/
theorem headSafe_iff {ins : Instruction}
    (passes : Passes v heap runtime.table start patch checkTerminate tary)
    (boundary : runtime.table start = UInt8.ofNat DCV) (recorded : record start = some ins)
    (nonempty : 0 < patch.length) :
    AlwaysWhole (UInt8.ofNat DCV) runtime.image (runtime.image.storeBytes start patch)
        (start + 1) (start + patch.length) start (oldStop runtime.table record start)
        (patchStop v start patch start) ↔
      HeadSafe v record runtime start patch := by
  have same : ∀ later, start + patch.length ≤ later →
      runtime.image later = runtime.image.storeBytes start patch later :=
    fun later behind => (storeBytes_outside _ (Or.inr behind)).symm
  have oldStops : oldStop runtime.table record start = some ins.stop := by
    rw [oldStop, if_pos boundary, recorded, Option.map_some]
  obtain ⟨stop, stops⟩ := exists_patchStop passes nonempty
  have inside := patchStop_inside passes stops
  rw [HeadSafe, oldStops, stops, alwaysWhole_head same inside.1 inside.2]
  constructor
  · intro safe oldEnd newEnd isOld isNew
    cases isOld
    cases isNew
    exact safe
  · intro safe
    exact safe _ _ rfl rfl

/-- What a thread may fetch between the stores of a patch that is written. -/
theorem fetchable_iff {ins : Instruction}
    (passes : Passes v heap runtime.table start patch checkTerminate tary)
    (boundary : runtime.table start = UInt8.ofNat DCV) (recorded : record start = some ins) :
    (∀ k, 0 < k → k < (patchStores v runtime start patch).length →
        Fetchable v record runtime start patch
          (applyStores runtime.image ((patchStores v runtime start patch).take k))) ↔
      SafePatch v record runtime start patch := by
  unfold SafePatch
  split
  next same =>
    by_cases several : start + patch.length ≤ start / 8 * 8 + 8
    · refine iff_of_true (fun k began within => ?_) (Or.inl several)
      rw [patchStores_eq, if_pos same, if_pos several, List.length_singleton] at within
      omega
    · rw [or_iff_right several, ← startsSafe_iff passes, during_same same several]
      exact ⟨fun during addr low high starts cut began within =>
          during cut began within addr low high starts,
        fun readable cut began within addr low high starts =>
          readable addr low high starts cut began within⟩
  next differ =>
    have nonempty := nonempty_of_boundaries differ
    rw [← startsSafe_iff passes, ← headSafe_iff passes boundary recorded nonempty,
      during_different differ]
    constructor
    · intro during
      refine ⟨fun cut began within => ?_, fun addr low high starts cut began within =>
        during cut began within addr (by omega) high starts⟩
      refine during cut began within start (Nat.le_refl start) (by omega) (Or.inl ?_)
      rw [oldStop, if_pos boundary, recorded]
      exact Option.some_ne_none _
    · rintro ⟨head, later⟩ cut began within addr low high starts
      rcases Nat.lt_or_ge start addr with behind | isHead
      · exact later addr behind high starts cut began within
      · cases Nat.le_antisymm isHead low
        exact head cut began within

/-- The effect of a replacement that finds code is that of its stores. -/
theorem replacement_stores
    {bufferAddr index dst extra : Nat} {handle : Option Nat} {src : List UInt8}
    {after : Runtime}
    (named : getCodeHeap handle runtime.modules = .ok (index, heap))
    (hasVerifier : heap.verifier = some v)
    (isPatch : replacePatch runtime heap dst src extra = some (start, patch))
    (isCode : whichArea heap.codeDataBitmap (start - heap.baseAddr) patch.length = .code)
    (returned : codeHeapFill bufferAddr handle dst src extra runtime = .ok after) :
    after.image = applyStores runtime.image (patchStores v runtime start patch) ∧
      runtime.table start = UInt8.ofNat DCV ∧
      ∃ checkTerminate tary, Passes v heap runtime.table start patch checkTerminate tary := by
  obtain ⟨own, ownHeap, ownNamed, effect⟩ := codeHeapFill_effect returned
  cases ownNamed.symm.trans named
  cases effect with
  | unchanged _ skipped => exact absurd isCode (skipped start patch isPatch)
  | data asData area =>
      simp [replacePatch, asData, area] at isPatch
  | installed installs =>
      rw [installedCode_of_patch isPatch] at installs
      cases installs
  | replaced samePatch area boundary passes =>
      cases isPatch.symm.trans samePatch
      cases hasVerifier.symm.trans passes.hasVerifier
      exact ⟨applyStores_patchStores.symm, boundary, _, _, passes⟩

/--
A replacement is safe for threads that run its range exactly when its patch is
one that nobody can meet half-written.
-/
theorem replacesSafely_iff
    {bufferAddr index dst extra : Nat} {handle : Option Nat} {src : List UInt8}
    {after : Runtime} {ins : Instruction}
    (named : getCodeHeap handle runtime.modules = .ok (index, heap))
    (hasVerifier : heap.verifier = some v)
    (isPatch : replacePatch runtime heap dst src extra = some (start, patch))
    (isCode : whichArea heap.codeDataBitmap (start - heap.baseAddr) patch.length = .code)
    (recorded : record start = some ins)
    (returned : codeHeapFill bufferAddr handle dst src extra runtime = .ok after) :
    ReplacesSafely v record runtime after start patch ↔
      SafePatch v record runtime start patch := by
  obtain ⟨stored, boundary, checkTerminate, tary, passes⟩ :=
    replacement_stores named hasVerifier isPatch isCode returned
  rw [← fetchable_iff passes boundary recorded]
  refine ⟨fun safe => safe.fetchable, fun fetchable => ⟨stored, fetchable, ?_⟩⟩
  rw [stored, applyStores_patchStores,
    readImage_storeBytes (Nat.le_refl start) (Nat.le_refl _), Nat.sub_self, List.drop_zero,
    List.take_length]

end Safety

section Examples

/--
An automaton of two instructions, an opcode of two bytes with two bytes of data
and a trap byte, a terminator.
-/
def moveVerifier : Verifier :=
  spreadVerifier fun index =>
    if index = 13 * 256 + 0x66 then 14
    else if index = 14 * 256 + 0xb8 then 15
    else if 15 * 256 ≤ index ∧ index < 16 * 256 then 16
    else if 16 * 256 ≤ index ∧ index < 17 * 256 then 1
    else if index = 13 * 256 + 0xcc then 12
    else 0

/-- A heap with sixteen bytes of code. -/
def moveHeap : CodeModule :=
  { exampleHeap moveVerifier with codeDataBitmap := setCode (fun _ => 0) 0 16 }

/-- The boundaries of its two instructions. -/
def moveTable : ByteMem :=
  (ByteMem.storeByte (fun _ => 0) 0x400006 (UInt8.ofNat DCV)).storeByte 0x40000a
    (UInt8.ofNat DCV)

/-- A move whose data starts a word, with a trap behind it. -/
def moveRuntime : Runtime :=
  { Runtime.boot with
    modules := [moveHeap]
    image := ByteMem.storeBytes (fun _ => 0) 0x400006 [0x66, 0xb8, 0, 0, 0xcc]
    table := moveTable }

/-- The record of the two instructions. -/
def moveRecord : CodeRecord := fun addr =>
  if addr = 0x400006 then some ⟨0x400006, 0x40000a, 1⟩
  else if addr = 0x40000a then some ⟨0x40000a, 0x40000b, 12⟩
  else none

theorem wellFormed_move :
    WellFormedCode moveVerifier moveRuntime moveHeap moveRecord := by
  rintro addr ⟨⟨low, _⟩, isMarked, isBoundary⟩
  change 0x400000 ≤ addr at low
  change marked (setCode (fun _ => 0) 0 16) (addr - 0x400000) = true at isMarked
  change moveTable addr = UInt8.ofNat DCV at isBoundary
  rw [marked_setCode _ _ _ rfl] at isMarked
  have within : addr - 0x400000 < 16 := by
    rcases isMarked with never | within
    · simp [marked] at never
    · omega
  have others : ∀ k < 16, k ≠ 6 → k ≠ 10 →
      moveTable (0x400000 + k) ≠ UInt8.ofNat DCV := by decide
  have starts : addr = 0x400006 ∨ addr = 0x40000a := by
    by_contra elsewhere
    refine others (addr - 0x400000) within (by omega) (by omega) ?_
    rw [Nat.add_sub_cancel' low]
    exact isBoundary
  rcases starts with rfl | rfl
  · refine ⟨_, rfl, rfl, ⟨by decide, by decide, by decide, ?_, by decide⟩,
      Or.inr (by decide)⟩
    change dfaRun moveVerifier 13 (readImage moveRuntime.image 0x400006 4) = 1
    decide
  · refine ⟨_, rfl, rfl, ⟨by decide, by decide, by decide, ?_, by decide⟩,
      Or.inl (by decide)⟩
    change dfaRun moveVerifier 13 (readImage moveRuntime.image 0x40000a 1) = 12
    decide

/-- The two bytes of data of an instruction are replaced one after the other. -/
theorem replacement_torn :
    ¬ ∀ (v : Verifier) (runtime after : Runtime) (heap : CodeModule) (record : CodeRecord)
        (index start dst extra bufferAddr : Nat) (handle : Option Nat)
        (src patch : List UInt8),
      getCodeHeap handle runtime.modules = .ok (index, heap) →
      heap.verifier = some v →
      WellFormedCode v runtime heap record →
      replacePatch runtime heap dst src extra = some (start, patch) →
      whichArea heap.codeDataBitmap (start - heap.baseAddr) patch.length = .code →
      codeHeapFill bufferAddr handle dst src extra runtime = .ok after →
        ReplacesSafely v record runtime after start patch := by
  intro replaces
  have returned : codeHeapFill 0 (some 0) 0x400006 [0x66, 0xb8, 1, 1] 17 moveRuntime =
      .ok (moveRuntime.writeCode 0x400006 [0x66, 0xb8, 1, 1]
        [UInt8.ofNat DCV, 0, 0, 0]) := by
    rfl
  have safe := replaces moveVerifier _ _ _ moveRecord 0 0x400006 _ _ _ _ _
    [0x66, 0xb8, 1, 1] rfl rfl wellFormed_move rfl rfl returned
  -- after the third store the first byte of the data is new and the second is old
  have torn := safe.fetchable 3 (by decide) (by decide) 0x400006 (by decide) (by decide)
    (Or.inl (by decide))
  rcases torn with ⟨_, ⟨⟩, isOld⟩ | isTrap | ⟨_, ⟨⟩, isNew⟩
  · exact absurd (isOld 0x400008 (by decide) (by decide)) (by decide)
  · exact absurd isTrap (by decide)
  · exact absurd (isNew 0x400009 (by decide) (by decide)) (by decide)

/-- Replacing one byte of the data. -/
theorem replacesSafely_iff_move :
    ∃ after, codeHeapFill 0 (some 0) 0x400006 [0x66, 0xb8, 1, 0] 17 moveRuntime = .ok after ∧
      ReplacesSafely moveVerifier moveRecord moveRuntime after 0x400006
        [0x66, 0xb8, 1, 0] := by
  have returned : codeHeapFill 0 (some 0) 0x400006 [0x66, 0xb8, 1, 0] 17 moveRuntime =
      .ok (moveRuntime.writeCode 0x400006 [0x66, 0xb8, 1, 0]
        [UInt8.ofNat DCV, 0, 0, 0]) := by
    rfl
  refine ⟨_, returned, (replacesSafely_iff rfl rfl rfl rfl
    (rfl : moveRecord 0x400006 = some ⟨0x400006, 0x40000a, 1⟩) returned).mpr ?_⟩
  have boundaries : oldTary moveRuntime.table 0x400006 [0x66, 0xb8, 1, 0] =
      patchTary moveVerifier [0x66, 0xb8, 1, 0] := by
    decide
  have elsewhere : ∀ addr, 0x400006 ≤ addr → addr ≠ 0x400008 → addr < 0x40000a →
      moveRuntime.image addr =
        moveRuntime.image.storeBytes 0x400006 [0x66, 0xb8, 1, 0] addr := by
    intro addr low other high
    obtain rfl | rfl | rfl : addr = 0x400006 ∨ addr = 0x400007 ∨ addr = 0x400009 := by
      omega
    all_goals decide
  rw [SafePatch, if_pos boundaries]
  refine Or.inr fun addr low high => ?_
  change addr < 0x400006 + 4 at high
  obtain rfl | rfl | rfl | rfl : addr = 0x400006 ∨ addr = 0x400007 ∨ addr = 0x400008 ∨
      addr = 0x400009 := by
    omega
  · refine Or.inr fun earlier later above order inOld inNew => ?_
    change later < 0x40000a at inNew
    by_cases atData : earlier = 0x400008
    · exact Or.inr (elsewhere later (by omega) (by omega) inNew)
    · exact Or.inl (elsewhere earlier above atData (by omega))
  all_goals exact trivial

end Examples

end Mcfi
