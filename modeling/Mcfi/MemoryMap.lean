import Mcfi.ProgramBreak

namespace Mcfi

/-!
# The memory map of the sandbox

The pager's regions must not overlap: then every call covers or uncovers exactly
its own pages, and what the pager chooses is free.  `VmmapAdd` does not look at
the other regions, so its callers have to: a code heap and a library are put
where the pager has found space, but `rock_brk` reserves whatever lies behind the
break.
-/

section Loading

/-- A program header, for a segment that ends in user space. -/
structure Phdr where
  load : Bool
  exec : Bool
  vaddr : UInt64
  memsz : UInt64
  fits : vaddr.toNat + memsz.toNat ≤ 2 ^ 47

namespace Phdr

/-- The end of the segment in the file's addresses. -/
def vaddrEnd (phdr : Phdr) : Nat :=
  phdr.vaddr.toNat + phdr.memsz.toNat

/-- The address that the segment is loaded at. -/
def addr (base : Nat) (isExe : Bool) (phdr : Phdr) : Nat :=
  (base + if isExe then sub64 phdr.vaddr.toNat x64AbiBase
    else phdr.vaddr.toNat) % 2 ^ 64

/-- The pages that the segment is loaded at. -/
def region (base : Nat) (isExe : Bool) (phdr : Phdr) : VmmapEntry :=
  let curpage := curPage (phdr.addr base isExe)
  let sz := sub64
    (roundToPage ((phdr.addr base isExe + phdr.memsz.toNat) % 2 ^ 64)) curpage
  ⟨curpage / pageSize, sz / pageSize⟩

end Phdr

/-- `load_elf`, how many bytes the segments need. -/
def phdrVaddrEnd (phdrs : List Phdr) : Nat :=
  phdrs.foldl (fun stop phdr =>
    if phdr.load ∧ stop < phdr.vaddrEnd then phdr.vaddrEnd else stop) 0

/-- `load_elf`, the base of the module. -/
def loadElfBase (isExe : Bool) (phdrs : List Phdr) (vm : Vmmap) : Rt Nat :=
  if isExe then
    .ok x64AbiBase
  else
    let pa := vmmapFindSpace vm (roundToPage (phdrVaddrEnd phdrs) / pageSize)
    if pa = 0 then
      .error (.quit "[load_elf] VmmapFindSpace pa failed\n")
    else
      .ok (pa * pageSize % 2 ^ 64)

/-- `load_elf`, the loop over the segments; the kernel maps no empty range. -/
def loadSegments (base : Nat) (isExe : Bool) : List Phdr → Vmmap → Rt Vmmap
  | [], vm => .ok vm
  | phdr :: rest, vm =>
      if phdr.load then
        let region := phdr.region base isExe
        if region.npages = 0 then
          if phdr.exec then
            .error (.quit "[create_parallel_mapping] mmap base failed\n")
          else
            .error (.quit
              "[load_elf] mmap failed for alloc a program section\n")
        else
          loadSegments base isExe rest
            (vmmapAdd vm region.pageNum region.npages)
      else
        loadSegments base isExe rest vm

/-- The pages that a list of segments is loaded at. -/
def segmentRegions (base : Nat) (isExe : Bool) (phdrs : List Phdr) :
    List VmmapEntry :=
  (phdrs.filter Phdr.load).map (Phdr.region base isExe)

end Loading

section Calls

/-- A call that changes the memory map. -/
inductive MapCall where
  | load (parsed : CodeModule) (isExe : Bool) (phdrs : List Phdr)
  | createHeap (ph size : Nat) (verifier : Option Verifier)
  | heap (call : HeapCall)

/-- A call returns, over a break that starts at `start`. -/
inductive MapStep (start : Nat) (before : HeapState) :
    MapCall → HeapState → Prop where
  | load
      {parsed : CodeModule} {isExe : Bool} {phdrs : List Phdr} {vm : Vmmap}
      {runtime : Runtime}
      (modules : runtime.modules = before.sandbox.modules)
      (based : loadElfBase isExe phdrs before.sandbox.vm = .ok parsed.baseAddr)
      (loaded : loadSegments parsed.baseAddr isExe phdrs before.sandbox.vm =
        .ok vm) :
      MapStep start before (.load parsed isExe phdrs)
        { before with sandbox := ⟨vm, (loadElf parsed runtime).modules⟩ }
  | createHeap
      {ph size : Nat} {verifier : Option Verifier} {runtime created : Runtime}
      (modules : runtime.modules = before.sandbox.modules)
      (returned : createCodeHeap ph
        (vmmapFindSpace before.sandbox.vm (size / pageSize)) size verifier
        runtime = .ok created) :
      MapStep start before (.createHeap ph size verifier)
        { before with sandbox := ⟨vmmapAdd before.sandbox.vm
          (vmmapFindSpace before.sandbox.vm (size / pageSize))
          (size / pageSize), created.modules⟩ }
  | heap
      {call : HeapCall} {after : HeapState}
      (step : HeapStep start before call after) :
      MapStep start before (.heap call) after

/-- The states that admitted calls reach. -/
def MapRun (start : Nat) (admits : HeapState → MapCall → Prop)
    (begin : HeapState) : HeapState → Prop :=
  Relation.ReflTransGen
    (fun before after => ∃ call, admits before call ∧
      MapStep start before call after) begin

/--
The call adds regions where there are none: the segments of a module share no
pages, those of a program lie on free pages, and so does what `rock_brk` reserves.
-/
def MapCall.AddsFree (before : HeapState) : MapCall → Prop
  | load parsed isExe phdrs =>
      (segmentRegions parsed.baseAddr isExe phdrs).Pairwise
          (Spans.Apart VmmapEntry.pageNum VmmapEntry.endPage) ∧
        (isExe = true → ∀ region ∈ segmentRegions parsed.baseAddr isExe phdrs,
          before.sandbox.vm.Free region.pageNum region.npages)
  | createHeap _ _ _ => True
  | heap (.brk _ initialBrk granted) => before.AddsFree initialBrk granted
  | heap (.mmap _ _ _ _ _ _) => True
  | heap (.munmap _ _) => True

end Calls

section Segments

variable {base : Nat} {isExe : Bool} {phdr : Phdr} {phdrs : List Phdr}

/-- The bytes needed hold every segment. -/
theorem vaddrEnd_le (listed : phdr ∈ phdrs) (loads : phdr.load = true) :
    phdr.vaddrEnd ≤ phdrVaddrEnd phdrs := by
  have grows : ∀ (rest : List Phdr) (stop : Nat),
      stop ≤ rest.foldl (fun stop phdr =>
        if phdr.load ∧ stop < phdr.vaddrEnd then phdr.vaddrEnd else stop) stop ∧
      (phdr ∈ rest → phdr.vaddrEnd ≤ rest.foldl (fun stop phdr =>
        if phdr.load ∧ stop < phdr.vaddrEnd then phdr.vaddrEnd
        else stop) stop) := by
    intro rest
    induction rest with
    | nil => exact fun stop => ⟨le_refl _, fun never => nomatch never⟩
    | cons head rest inductionHypothesis =>
        intro stop
        rw [List.foldl_cons]
        obtain ⟨further, member⟩ := inductionHypothesis
          (if head.load ∧ stop < head.vaddrEnd then head.vaddrEnd else stop)
        refine ⟨le_trans ?_ further, fun listed => ?_⟩
        · split
          next past => exact Nat.le_of_lt past.2
          next => exact le_refl _
        · rcases List.mem_cons.mp listed with rfl | later
          · refine le_trans ?_ further
            split
            next => exact le_refl _
            next notPast =>
              exact not_lt.mp fun past => notPast ⟨loads, past⟩
          · exact member later
  exact (grows phdrs 0).2 listed

/-- The bytes needed end in user space. -/
theorem phdrVaddrEnd_le : phdrVaddrEnd phdrs ≤ 2 ^ 47 := by
  have bounded : ∀ (rest : List Phdr) (stop : Nat), stop ≤ 2 ^ 47 →
      rest.foldl (fun stop phdr =>
        if phdr.load ∧ stop < phdr.vaddrEnd then phdr.vaddrEnd
        else stop) stop ≤ 2 ^ 47 := by
    intro rest
    induction rest with
    | nil => exact fun _ fits => fits
    | cons head rest inductionHypothesis =>
        intro stop fits
        rw [List.foldl_cons]
        apply inductionHypothesis
        split
        next => exact head.fits
        next => exact fits
  exact bounded phdrs 0 (by decide)

/-- The pages of a segment reach from its first byte to its last. -/
theorem region_eq
    (fits : phdr.addr base isExe + phdr.memsz.toNat ≤ 2 ^ 48) :
    (phdr.region base isExe).pageNum = phdr.addr base isExe / pageSize ∧
      (phdr.region base isExe).endPage =
        (phdr.addr base isExe + phdr.memsz.toNat + (pageSize - 1)) / pageSize := by
  simp only [Phdr.region, VmmapEntry.endPage, curPage, roundToPage, sub64]
  generalize phdr.addr base isExe = addr at *
  generalize phdr.memsz.toNat = memsz at *
  simp only [pageSize] at *
  constructor <;> omega

/-- A segment of a program is loaded where the file says. -/
theorem addr_exe : phdr.addr x64AbiBase true = phdr.vaddr.toNat := by
  have small := phdr.vaddr.toNat_lt
  simp only [Phdr.addr, if_true, sub64, x64AbiBase]
  omega

/-- The segments of a program lie in user space. -/
theorem region_exe :
    (phdr.region x64AbiBase true).endPage ≤ addressPages := by
  have fits := phdr.fits
  rw [(region_eq (by rw [addr_exe]; omega)).2, addr_exe]
  simp only [addressPages, pageSize] at *
  omega

/-- The segments of a library lie where the pager has found space. -/
theorem region_library
    {page : Nat}
    (inside : page + roundToPage (phdrVaddrEnd phdrs) / pageSize ≤ addressPages)
    (listed : phdr ∈ phdrs) (loads : phdr.load = true) :
    page ≤ (phdr.region (page * pageSize % 2 ^ 64) false).pageNum ∧
      (phdr.region (page * pageSize % 2 ^ 64) false).endPage ≤
        page + roundToPage (phdrVaddrEnd phdrs) / pageSize := by
  have needed := vaddrEnd_le listed loads
  have fits := @phdrVaddrEnd_le phdrs
  have rounded : roundToPage (phdrVaddrEnd phdrs) =
      (phdrVaddrEnd phdrs + 4095) / 4096 * 4096 := by
    rw [roundToPage, Nat.mod_eq_of_lt (by simp only [pageSize] at *; omega)]
    rfl
  rw [rounded] at inside ⊢
  have addrIs : phdr.addr (page * pageSize % 2 ^ 64) false =
      page * pageSize + phdr.vaddr.toNat := by
    simp only [Phdr.addr, Phdr.vaddrEnd, addressPages, pageSize,
      Bool.false_eq_true, if_false] at *
    omega
  have bounds := @region_eq (page * pageSize % 2 ^ 64) false phdr
  rw [addrIs] at bounds
  simp only [Phdr.vaddrEnd, addressPages, pageSize] at *
  omega

/-- Segments that share no pages, on free pages, keep the regions apart. -/
theorem sound_loadSegments
    {vm result : Vmmap} (sound : vm.Sound)
    (apart : (segmentRegions base isExe phdrs).Pairwise
      (Spans.Apart VmmapEntry.pageNum VmmapEntry.endPage))
    (free : ∀ region ∈ segmentRegions base isExe phdrs,
      vm.Free region.pageNum region.npages)
    (inside : ∀ region ∈ segmentRegions base isExe phdrs,
      region.endPage ≤ addressPages)
    (loaded : loadSegments base isExe phdrs vm = .ok result) :
    result.Sound := by
  induction phdrs generalizing vm with
  | nil =>
      cases loaded
      exact sound
  | cons phdr rest inductionHypothesis =>
      unfold loadSegments at loaded
      split at loaded
      next loads =>
        have regions : segmentRegions base isExe (phdr :: rest) =
            phdr.region base isExe :: segmentRegions base isExe rest := by
          simp [segmentRegions, loads]
        rw [regions] at apart free inside
        obtain ⟨first, apartRest⟩ := List.pairwise_cons.mp apart
        simp only at loaded
        split at loaded
        next => split at loaded <;> cases loaded
        next nonempty =>
          have here := free _ List.mem_cons_self
          have added : (vmmapAdd vm (phdr.region base isExe).pageNum
              (phdr.region base isExe).npages).Sound :=
            ⟨vmmapAdd_noOverlap sound.noOverlap (Nat.pos_of_ne_zero nonempty)
                here,
              vmmapAdd_within sound.within (inside _ List.mem_cons_self)⟩
          refine inductionHypothesis added apartRest (fun region listed page low
            high covered => ?_) (fun region listed => inside region
              (List.mem_cons_of_mem _ listed)) loaded
          rcases covers_vmmapAdd.mp covered with old | new
          · exact free region (List.mem_cons_of_mem _ listed) page low high old
          · have separate := first region listed
            simp only [Spans.Apart, VmmapEntry.endPage] at separate
            omega
      next skips =>
        have regions : segmentRegions base isExe (phdr :: rest) =
            segmentRegions base isExe rest := by
          simp [segmentRegions, skips]
        rw [regions] at apart free inside
        exact inductionHypothesis sound apart free inside loaded

/-- A library is loaded where the pager has found space. -/
theorem loadElfBase_library
    {vm : Vmmap} (sound : vm.Sound)
    (based : loadElfBase false phdrs vm = .ok base) :
    ∃ page, base = page * pageSize % 2 ^ 64 ∧
      Gap vm addressPages page (roundToPage (phdrVaddrEnd phdrs) / pageSize) := by
  simp only [loadElfBase, Bool.false_eq_true, if_false] at based
  split at based
  next => cases based
  next found =>
    cases based
    exact ⟨_, rfl, vmmapFindSpace_gap sound.noOverlap sound.within (by decide)
      found⟩

/-- Loading a module whose segments share no pages keeps the regions apart. -/
theorem sound_loadElf
    {vm result : Vmmap} (sound : vm.Sound)
    (based : loadElfBase isExe phdrs vm = .ok base)
    (apart : (segmentRegions base isExe phdrs).Pairwise
      (Spans.Apart VmmapEntry.pageNum VmmapEntry.endPage))
    (free : isExe = true → ∀ region ∈ segmentRegions base isExe phdrs,
      vm.Free region.pageNum region.npages)
    (loaded : loadSegments base isExe phdrs vm = .ok result) :
    result.Sound := by
  cases isExe with
  | true =>
      cases based
      refine sound_loadSegments sound apart (free rfl) ?_ loaded
      rintro region listed
      obtain ⟨phdr, _, rfl⟩ := List.mem_map.mp listed
      exact region_exe
  | false =>
      obtain ⟨page, rfl, gap⟩ := loadElfBase_library sound based
      have place : ∀ region ∈ segmentRegions (page * pageSize % 2 ^ 64) false
          phdrs, page ≤ region.pageNum ∧ region.endPage ≤
            page + roundToPage (phdrVaddrEnd phdrs) / pageSize := by
        intro region listed
        obtain ⟨phdr, member, rfl⟩ := List.mem_map.mp listed
        obtain ⟨listed, loads⟩ := List.mem_filter.mp member
        exact region_library gap.fits listed loads
      refine sound_loadSegments sound apart (fun region listed other low high =>
        ?_) (fun region listed => (place region listed).2.trans gap.fits) loaded
      have inGap := place region listed
      simp only [VmmapEntry.endPage] at inGap
      exact gap.free other (by omega) (by omega)

/-- A code heap is created where the pager has found space. -/
theorem sound_createHeap
    {vm : Vmmap} {ph size : Nat} {verifier : Option Verifier}
    {runtime created : Runtime} (sound : vm.Sound)
    (returned : createCodeHeap ph (vmmapFindSpace vm (size / pageSize)) size
      verifier runtime = .ok created) :
    (vmmapAdd vm (vmmapFindSpace vm (size / pageSize))
      (size / pageSize)).Sound := by
  have checks : vmmapFindSpace vm (size / pageSize) ≠ 0 ∧ 0 < size ∧
      size % pageSize = 0 := by
    unfold createCodeHeap at returned
    split at returned
    next => cases returned
    next =>
      split at returned
      next => cases returned
      next =>
        split at returned
        next => cases returned
        next found =>
          split at returned
          next mapped => exact ⟨found, mapped⟩
          next => cases returned
  have gap := vmmapFindSpace_gap sound.noOverlap sound.within (by decide)
    checks.1
  refine ⟨vmmapAdd_noOverlap sound.noOverlap ?_ gap.free,
    vmmapAdd_within sound.within gap.fits⟩
  simp only [pageSize] at checks ⊢
  omega

end Segments

section Regions

/-- A page lies in a range of addresses. -/
def InRange (start : Int) (len : Nat) (page : Nat) : Prop :=
  start ≤ page * pageSize ∧ page * pageSize < start + roundToPage len

/-- What the pager's list is good for. -/
structure RegionsKept (sandbox : Sandbox) : Prop where
  noOverlap : sandbox.vm.NoOverlap
  mapped : ∀ {base len prot flags fd off value after},
    (rockMmap base len prot flags fd off sandbox).Returns (value, after) →
      (after = sandbox ∧ (value < 0 ∨
        ∃ heap, fixedInHeap sandbox base.toNat len.toNat flags = some heap)) ∨
      (0 ≤ value ∧ ∀ page, after.vm.Covers page ↔
        sandbox.vm.Covers page ∨ InRange value len.toNat page)
  unmapped : ∀ {base len value after},
    (rockMunmap base len sandbox).Returns (value, after) →
      (after = sandbox ∧ value < 0) ∨
      (value = 0 ∧ ∀ page, after.vm.Covers page ↔
        sandbox.vm.Covers page ∧ ¬ InRange base.toNat len.toNat page)
  placed : ∀ {base len prot flags fd off value after},
    mapFixed flags = false →
      (rockMmap base len prot flags fd off sandbox).Returns (value, after) →
        0 ≤ value → ∀ page, InRange value len.toNat page →
          ¬ sandbox.vm.Covers page
  based : ∀ {phdrs base}, loadElfBase false phdrs sandbox.vm = .ok base →
    ∀ page, InRange base (phdrVaddrEnd phdrs) page → ¬ sandbox.vm.Covers page
  created : ∀ {size}, vmmapFindSpace sandbox.vm (size / pageSize) ≠ 0 →
    sandbox.vm.Free (vmmapFindSpace sandbox.vm (size / pageSize))
      (size / pageSize)

/-- The pages of a range that starts at a page. -/
theorem inRange_iff {first len page : Nat} :
    InRange (first * pageSize : Nat) len page ↔
      first ≤ page ∧ page < first + roundToPage len / pageSize := by
  have aligned : roundToPage len % pageSize = 0 := Nat.mul_mod_left _ _
  simp only [InRange, pageSize] at *
  omega

/-- Regions that do not overlap are good for all of this. -/
theorem regionsKept {sandbox : Sandbox} (sound : sandbox.vm.Sound) :
    RegionsKept sandbox where
  noOverlap := sound.noOverlap
  mapped := by
    intro base len prot flags fd off value after returned
    rcases rockMmap_outcome returned with unchanged | ⟨page, vm, rfl, nonempty,
      chosen, issued, added, rfl⟩
    · exact Or.inl unchanged
    · refine Or.inr ⟨Int.natCast_nonneg _, fun other => ?_⟩
      rw [issues_rockMmap] at issued
      obtain ⟨_, below, lenBelow, _⟩ := issued
      have small : page * pageSize < 2 ^ 64 := by
        have pages := mmapPage_some sound.noOverlap sound.within (by decide)
          chosen
        split at pages
        next =>
          have base64 := base.toNat_lt
          simp only [pageSize] at *
          omega
        next =>
          have fits := pages.2.fits
          simp only [addressPages, pageSize] at *
          omega
      rw [Nat.mod_eq_of_lt small, inRange_iff]
      exact covers_vmmapAddWithOverwrite sound.noOverlap added other
  unmapped := by
    intro base len value after returned
    rcases rockMunmap_outcome returned with unchanged | ⟨vm, rfl, issued,
      aligned, removed, rfl⟩
    · exact Or.inl unchanged
    · refine Or.inr ⟨rfl, fun other => ?_⟩
      rw [issues_rockMunmap] at issued
      have startIs : base.toNat = roundToPage base.toNat / pageSize * pageSize := by
        rw [roundToPage_of_le (by omega)]
        simp only [pageSize] at *
        omega
      rw [startIs, inRange_iff]
      exact covers_vmmapRemove sound.noOverlap removed other
  placed := by
    intro base len prot flags fd off value after notFixed returned succeeded
      page inRange
    obtain ⟨first, rfl, free⟩ := placed_free sound notFixed returned succeeded
    rw [inRange_iff] at inRange
    exact free page inRange.1 inRange.2
  based := by
    intro phdrs base based page inRange
    obtain ⟨first, rfl, gap⟩ := loadElfBase_library sound based
    have fits := gap.fits
    rw [Nat.mod_eq_of_lt (by simp only [addressPages, pageSize] at *; omega),
      inRange_iff] at inRange
    exact gap.free page inRange.1 inRange.2
  created := by
    intro size found
    exact (vmmapFindSpace_gap sound.noOverlap sound.within (by decide)
      found).free

end Regions

section Runs

variable {start : Nat} {before after state : HeapState}

/-- A call that adds its regions on free pages keeps the regions apart. -/
theorem heapKept_mapStep
    {call : MapCall} (kept : HeapKept start before) (positive : 0 < start)
    (free : call.AddsFree before) (step : MapStep start before call after) :
    HeapKept start after := by
  cases step with
  | load modules based loaded =>
      exact kept.withSandbox (sound_loadElf kept.sound based free.1 free.2
        loaded)
  | createHeap modules returned =>
      exact kept.withSandbox (sound_createHeap kept.sound returned)
  | heap step =>
      refine heapKept_step kept positive ?_ step
      rintro newbrk initialBrk granted rfl
      exact free

/--
In every run whose calls add their regions where there are none, the regions do
not overlap, mappings and unmappings cover and uncover their own pages, and what
the pager chooses is free.
-/
theorem regions_disjoint
    (positive : 0 < start)
    (run : MapRun start (fun before call => call.AddsFree before)
      (.boot allocSandbox) state) :
    RegionsKept state.sandbox := by
  have kept : HeapKept start state := by
    induction run with
    | refl =>
        exact ⟨BreakExample.sound_allocSandbox, Or.inl ⟨rfl, rfl⟩⟩
    | tail _ step inductionHypothesis =>
        obtain ⟨call, free, step⟩ := step
        exact heapKept_mapStep inductionHypothesis positive free step
  exact regionsKept kept.sound

end Runs

section Examples

open BreakExample

/-- A mapping behind the reservation, which the break then reserves again. -/
theorem regions_overlap :
    ¬ ∀ state, MapRun 0x1000000 (fun _ _ => True) (.boot allocSandbox) state →
      RegionsKept state.sandbox := by
  intro holds
  have added : vmmapAddWithOverwrite reserved.sandbox.vm 0x1900
      (roundToPage (0x1000 : UInt64).toNat / pageSize) = .ok
        [⟨0, 0x400⟩, ⟨0x1000, 0x800⟩, ⟨0xFF800, 0x800⟩, ⟨0x1900, 1⟩] := by
    decide
  have mapped : HeapStep 0x1000000 reserved
      (.mmap 0x1900000 0x1000 3 0x32 (-1) 0)
      { reserved with sandbox :=
        ⟨[⟨0, 0x400⟩, ⟨0x1000, 0x800⟩, ⟨0xFF800, 0x800⟩, ⟨0x1900, 1⟩], []⟩ } :=
    .mmap (rockMmap_granted (by decide) (by decide) (by decide) (by decide)
      (by decide) (by decide) (by decide) (by decide) (by decide) added)
  have grown : HeapStep 0x1000000
      { reserved with sandbox :=
        ⟨[⟨0, 0x400⟩, ⟨0x1000, 0x800⟩, ⟨0xFF800, 0x800⟩, ⟨0x1900, 1⟩], []⟩ }
      (.brk 0x1801000 0 0x1801000)
      ⟨⟨[⟨0, 0x400⟩, ⟨0x1000, 0x800⟩, ⟨0xFF800, 0x800⟩, ⟨0x1900, 1⟩,
        ⟨0x1800, 0x801⟩], []⟩, 0x1801000, 0x2001000⟩ := by
    refine .brk (fun never => absurd never (by decide))
      (Or.inr ⟨by decide, by decide⟩) ?_
    rw [rockBrk_running (by decide) (by decide), rockBrkMoved,
      if_pos (by decide)]
    rfl
  have run : MapRun 0x1000000 (fun _ _ => True) (.boot allocSandbox) _ :=
    ((Relation.ReflTransGen.single
      ⟨.heap (.brk 0x1001000 0x1000000 0x1001000), trivial,
        .heap step_reserved⟩).tail
      ⟨.heap (.mmap 0x1900000 0x1000 3 0x32 (-1) 0), trivial,
        .heap mapped⟩).tail
      ⟨.heap (.brk 0x1801000 0 0x1801000), trivial, .heap grown⟩
  have apart := (holds _ run).noOverlap.apart
  simp [Spans.Apart, VmmapEntry.endPage] at apart

/-- A reservation on free pages. -/
theorem regions_disjoint_reserved : RegionsKept reserved.sandbox :=
  regions_disjoint (by decide) (.single
    ⟨.heap (.brk 0x1001000 0x1000000 0x1001000), addsFree_boot,
      .heap step_reserved⟩)

end Examples

end Mcfi
