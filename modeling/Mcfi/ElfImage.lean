import Mcfi.Lib.MappedMem
import Mcfi.MemoryMap

namespace Mcfi

/-!
# Loading a file

`load_elf` maps the pages of every segment and copies the bytes of the file there.
The executable segment goes a way of its own: it is mapped twice, and the mapping in
the sandbox starts at the base of the module, whichever page the segment starts at.
The pages of `.got.plt` are then taken out and mapped anew.
-/

section File

/-- A program header whose segment has its bytes in the file. -/
structure Segment (content : List UInt8) extends Phdr where
  offset : Nat
  filesz : Nat
  filled : filesz ≤ memsz.toNat
  inFile : offset + filesz ≤ content.length

namespace Segment

variable {content : List UInt8}

/-- The first page of a segment, in the addresses of the file. -/
def firstPage (phdr : Segment content) : Nat :=
  phdr.vaddr.toNat / pageSize

/-- The page behind a segment, in the addresses of the file. -/
def stopPage (phdr : Segment content) : Nat :=
  (phdr.vaddrEnd + (pageSize - 1)) / pageSize

/-- The bytes of a segment. -/
def bytes (phdr : Segment content) : List UInt8 :=
  (content.drop phdr.offset).take phdr.filesz

theorem length_bytes (phdr : Segment content) : phdr.bytes.length = phdr.filesz := by
  have inFile := phdr.inFile
  rw [bytes, List.length_take, List.length_drop]
  omega

/-- The byte of a segment at an offset from its start. -/
def byteAt (phdr : Segment content) (index : Nat) : UInt8 :=
  if index < phdr.filesz then content.getD (phdr.offset + index) 0 else 0

/-- An address is on the pages of a loaded segment. -/
def OnPages (phdr : Segment content) (base : Nat) (isExe : Bool) (address : Nat) :
    Prop :=
  (phdr.region base isExe).pageNum * pageSize ≤ address ∧
    address < (phdr.region base isExe).endPage * pageSize

instance (phdr : Segment content) (base : Nat) (isExe : Bool) (address : Nat) :
    Decidable (phdr.OnPages base isExe address) :=
  inferInstanceAs (Decidable (_ ∧ _))

/-- What is on the pages of a segment that is loaded at an address. -/
def pageByte (phdr : Segment content) (addr address : Nat) : UInt8 :=
  if addr ≤ address then phdr.byteAt (address - addr) else 0

end Segment

/--
A file that `load_mcfi_metadata` has patched.  Its segments share no pages, one of
them is executable, and `.got.plt` is in a segment if the file has one.
-/
structure ElfProgram where
  content : List UInt8
  phdrs : List (Segment content)
  instrumented : Bool
  gotPlt : UInt64
  gotPltSize : UInt64
  entry : UInt64
  nonempty : ∀ phdr ∈ phdrs, phdr.load = true → 0 < phdr.memsz.toNat
  apart : (phdrs.filter fun phdr => phdr.load).Pairwise
    (Spans.Apart Segment.firstPage Segment.stopPage)
  oneText : ∃ text, (phdrs.filter fun phdr => phdr.load && phdr.exec) = [text]
  gotPltInside : gotPltSize ≠ 0 → ∃ phdr ∈ phdrs, phdr.load = true ∧
    phdr.vaddr.toNat ≤ gotPlt.toNat ∧
      gotPlt.toNat + gotPltSize.toNat ≤ phdr.vaddrEnd

end File

section Loading

/-- What the loop over the segments fills. -/
structure LoadState where
  mem : MappedMem
  vm : Vmmap
  sz : Nat

/-- The address that a file address is loaded at. -/
def loadAddr (base : Nat) (isExe : Bool) (vaddr : Nat) : Nat :=
  (base + if isExe then sub64 vaddr x64AbiBase else vaddr) % 2 ^ 64

variable {content : List UInt8}

/-- `load_elf`, the body of the loop over the segments; the kernel grants its calls. -/
def loadSegment (base : Nat) (isExe : Bool) (phdr : Segment content)
    (state : LoadState) : Rt LoadState :=
  let region := phdr.region base isExe
  let curpage := region.pageNum * pageSize
  let sz := region.npages * pageSize
  let inPage := phdr.vaddr.toNat % pageSize
  let vm := vmmapAdd state.vm region.pageNum region.npages
  if region.npages = 0 then
    if phdr.exec then
      .error (.quit "[create_parallel_mapping] mmap base failed\n")
    else
      .error (.quit "[load_elf] mmap failed for alloc a program section\n")
  else if phdr.exec then
    -- the copy goes through the second mapping of the same `sz` bytes
    if inPage + phdr.bytes.length ≤ sz then
      .ok ⟨(state.mem.mapZero base sz).put (base + inPage) phdr.bytes, vm, sz⟩
    else
      .error (.pageFault "load_elf")
  else
    let mem := state.mem.mapZero curpage sz
    match mem.read (curpage + inPage) phdr.bytes.length with
    | some _ => .ok ⟨mem.put (curpage + inPage) phdr.bytes, vm, state.sz⟩
    | none => .error (.pageFault "load_elf")

/-- `load_elf`, the loop over the segments. -/
def loadImage (base : Nat) (isExe : Bool) :
    List (Segment content) → LoadState → Rt LoadState
  | [], state => .ok state
  | phdr :: rest, state =>
      if phdr.load then do
        let state ← loadSegment base isExe phdr state
        loadImage base isExe rest state
      else
        loadImage base isExe rest state

/-- `load_elf`, where it maps `.got.plt` anew. -/
def remapGotPlt (base : Nat) (isExe : Bool) (elf : ElfProgram) (mem : MappedMem) :
    Rt MappedMem :=
  if elf.instrumented then
    let gotPlt := loadAddr base isExe elf.gotPlt.toNat
    let size := roundToPage elf.gotPltSize.toNat
    match mem.read gotPlt size with
    | none => .error (.pageFault "load_elf")
    | some bytes =>
        -- the kernel unmaps no part of a page, and no empty range
        if gotPlt % pageSize = 0 ∧ size ≠ 0 then
          .ok (((mem.unmap gotPlt size).mapZero gotPlt size).put gotPlt bytes)
        else
          .error (.quit "[load_elf] .got.plt unmap failed with %d\n")
  else
    .ok mem

/-- What `load_elf` leaves: the memory, and what it says about the module. -/
structure MappedElf where
  mem : MappedMem
  vm : Vmmap
  baseAddr : Nat
  sz : Nat
  gotPlt : Nat
  entry : Nat

/-- `load_elf`. -/
def loadElfImage (isExe : Bool) (elf : ElfProgram) (vm : Vmmap) (mem : MappedMem) :
    Rt MappedElf := do
  let base ← loadElfBase isExe (elf.phdrs.map Segment.toPhdr) vm
  let state ← loadImage base isExe elf.phdrs ⟨mem, vm, 0⟩
  let mem ← remapGotPlt base isExe elf state.mem
  return {
    mem := mem
    vm := state.vm
    baseAddr := base
    sz := state.sz
    gotPlt := loadAddr base isExe elf.gotPlt.toNat
    entry := (base + elf.entry.toNat) % 2 ^ 64
  }

end Loading

section Placing

variable {elf : ElfProgram} {isExe : Bool} {base origin : Nat} {vm : Vmmap}

/--
The segments lie `origin` pages behind their addresses in the file, and the base is
where the first page of a module belongs.
-/
structure Placed (elf : ElfProgram) (isExe : Bool) (base origin : Nat) : Prop where
  baseIs : base = origin * pageSize + if isExe then x64AbiBase else 0
  addr : ∀ phdr ∈ elf.phdrs, phdr.load = true →
    phdr.addr base isExe = origin * pageSize + phdr.vaddr.toNat
  fits : ∀ phdr ∈ elf.phdrs, phdr.load = true →
    origin * pageSize + phdr.vaddrEnd ≤ 2 ^ 48

/-- Where `load_elf` puts the module is free, in the pager and in memory. -/
structure TargetFree (isExe : Bool) (elf : ElfProgram) (vm : Vmmap) (mem : MappedMem)
    (base : Nat) : Prop where
  based : loadElfBase isExe (elf.phdrs.map Segment.toPhdr) vm = .ok base
  library : isExe = false → ∃ page, base = page * pageSize % 2 ^ 64 ∧
    Gap vm addressPages page
      (roundToPage (phdrVaddrEnd (elf.phdrs.map Segment.toPhdr)) / pageSize)
  executable : isExe = true → ∀ phdr ∈ elf.phdrs, phdr.load = true →
    vm.Free (phdr.region base isExe).pageNum (phdr.region base isExe).npages
  unmapped : ∀ phdr ∈ elf.phdrs, phdr.load = true → ∀ address,
    phdr.OnPages base isExe address → mem address = none

/-- A program is placed where the file says, and a library behind its base. -/
theorem TargetFree.placed {mem : MappedMem} (free : TargetFree isExe elf vm mem base) :
    ∃ origin, Placed elf isExe base origin := by
  cases isExe with
  | true =>
      cases free.based
      refine ⟨0, ⟨(Nat.zero_add _).symm.trans (by rw [Nat.zero_mul]; rfl), ?_, ?_⟩⟩
      · intro phdr _ _
        rw [addr_exe, Nat.zero_mul, Nat.zero_add]
      · intro phdr _ _
        have fits := phdr.fits
        simp only [Phdr.vaddrEnd]
        omega
  | false =>
      obtain ⟨page, rfl, gap⟩ := free.library rfl
      have needed {phdr : Segment elf.content} (listed : phdr ∈ elf.phdrs)
          (loads : phdr.load = true) :
          phdr.vaddrEnd ≤ phdrVaddrEnd (elf.phdrs.map Segment.toPhdr) :=
        vaddrEnd_le (List.mem_map_of_mem listed) loads
      have bounded := @phdrVaddrEnd_le (elf.phdrs.map Segment.toPhdr)
      have rounded : roundToPage (phdrVaddrEnd (elf.phdrs.map Segment.toPhdr)) =
          (phdrVaddrEnd (elf.phdrs.map Segment.toPhdr) + 4095) / 4096 * 4096 := by
        rw [roundToPage, Nat.mod_eq_of_lt (by simp only [pageSize] at *; omega)]
        rfl
      have room := gap.fits
      rw [rounded] at room
      refine ⟨page, ⟨?_, ?_, ?_⟩⟩
      · simp only [addressPages, pageSize, Bool.false_eq_true, if_false] at *
        omega
      · intro phdr listed loads
        have inside := needed listed loads
        simp only [Phdr.addr, Phdr.vaddrEnd, addressPages, pageSize,
          Bool.false_eq_true, if_false] at *
        omega
      · intro phdr listed loads
        have inside := needed listed loads
        simp only [addressPages, pageSize] at *
        omega

/-- Where the pages of a placed segment begin and end. -/
structure Window (base : Nat) (isExe : Bool) (phdr : Segment elf.content)
    (origin : Nat) : Prop where
  start : (phdr.region base isExe).pageNum = origin + phdr.firstPage
  stop : (phdr.region base isExe).endPage = origin + phdr.stopPage
  occupied : phdr.firstPage < phdr.stopPage
  address : phdr.addr base isExe = origin * pageSize + phdr.vaddr.toNat
  inPage : (phdr.region base isExe).pageNum * pageSize +
    phdr.vaddr.toNat % pageSize = phdr.addr base isExe
  inside : phdr.addr base isExe + phdr.memsz.toNat ≤
    (phdr.region base isExe).endPage * pageSize
  close : (phdr.region base isExe).endPage * pageSize <
    phdr.addr base isExe + phdr.memsz.toNat + pageSize

theorem Placed.window (placed : Placed elf isExe base origin)
    {phdr : Segment elf.content} (listed : phdr ∈ elf.phdrs)
    (loads : phdr.load = true) : Window base isExe phdr origin := by
  have addrIs := placed.addr phdr listed loads
  have fits := placed.fits phdr listed loads
  have nonempty := elf.nonempty phdr listed loads
  have bounds := @region_eq base isExe phdr.toPhdr (by
    rw [addrIs]
    simp only [Phdr.vaddrEnd] at fits
    omega)
  rw [addrIs] at bounds
  obtain ⟨startIs, stopIs⟩ := bounds
  clear fits
  simp only [pageSize] at *
  refine {
    start := startIs.trans ?_
    stop := stopIs.trans ?_
    occupied := ?_
    address := addrIs
    inPage := ?_
    inside := ?_
    close := ?_
  }
  · simp only [Segment.firstPage, pageSize]
    omega
  · simp only [Segment.stopPage, Phdr.vaddrEnd, pageSize]
    omega
  · simp only [Segment.firstPage, Segment.stopPage, Phdr.vaddrEnd, pageSize]
    omega
  · simp only [startIs, addrIs, pageSize]
    omega
  · simp only [stopIs, addrIs, pageSize]
    omega
  · simp only [stopIs, addrIs, pageSize]
    omega

/-- The end of the pages of a segment. -/
theorem Segment.stopIs (phdr : Segment elf.content) :
    (phdr.region base isExe).pageNum * pageSize +
      (phdr.region base isExe).npages * pageSize =
        (phdr.region base isExe).endPage * pageSize := by
  rw [VmmapEntry.endPage, Nat.add_mul]

/-- A segment's bytes on pages of zeros. -/
theorem Window.filled {phdr : Segment elf.content} (mem : MappedMem)
    (window : Window base isExe phdr origin) (address : Nat) :
    ((mem.mapZero ((phdr.region base isExe).pageNum * pageSize)
        ((phdr.region base isExe).npages * pageSize)).put
      ((phdr.region base isExe).pageNum * pageSize + phdr.vaddr.toNat % pageSize)
      phdr.bytes) address =
      if phdr.OnPages base isExe address then
        some (phdr.pageByte (phdr.addr base isExe) address)
      else mem address := by
  have length := phdr.length_bytes
  have filled := phdr.filled
  have inside := window.inside
  have inPage := window.inPage
  have stopIs := @Segment.stopIs elf isExe base phdr
  rw [inPage]
  by_cases written : phdr.addr base isExe ≤ address ∧
      address < phdr.addr base isExe + phdr.filesz
  · have onPages : phdr.OnPages base isExe address := by
      simp only [Segment.OnPages]
      omega
    rw [MappedMem.put_inside written.1 (by rw [length]; exact written.2), if_pos onPages,
      Segment.pageByte, if_pos written.1, Segment.byteAt, if_pos (by omega),
      Segment.bytes, List.getElem?_take_of_lt (by omega), List.getElem?_drop]
    have inFile := phdr.inFile
    rw [List.getD_eq_getElem?_getD, List.getElem?_eq_getElem (by omega)]
    rfl
  · rw [MappedMem.put_outside (by rw [length]; omega)]
    by_cases within : phdr.OnPages base isExe address
    · have high := within.2
      rw [if_pos within, MappedMem.mapZero_inside within.1 (by omega),
        Segment.pageByte]
      by_cases behind : phdr.addr base isExe ≤ address
      · rw [if_pos behind, Segment.byteAt, if_neg (by omega)]
      · rw [if_neg behind]
    · rw [if_neg within, MappedMem.mapZero_outside]
      simp only [Segment.OnPages] at within
      omega

theorem Window.length_le {phdr : Segment elf.content}
    (window : Window base isExe phdr origin) :
    phdr.vaddr.toNat % pageSize + phdr.bytes.length ≤
      (phdr.region base isExe).npages * pageSize := by
  have inside := window.inside
  have inPage := window.inPage
  have filled := phdr.filled
  have stopIs := @Segment.stopIs elf isExe base phdr
  rw [phdr.length_bytes]
  omega

/-- Two segments share no page. -/
theorem ElfProgram.apart_of_ne {first second : Segment elf.content}
    (listed : first ∈ elf.phdrs) (loads : first.load = true)
    (secondListed : second ∈ elf.phdrs) (secondLoads : second.load = true)
    (distinct : first ≠ second) :
    Spans.Apart Segment.firstPage Segment.stopPage first second :=
  elf.apart.forall (List.mem_filter.mpr ⟨listed, loads⟩)
    (List.mem_filter.mpr ⟨secondListed, secondLoads⟩) distinct

/-- There is one executable segment. -/
theorem ElfProgram.text_unique {first second : Segment elf.content}
    (listed : first ∈ elf.phdrs) (loads : first.load = true) (isText : first.exec = true)
    (secondListed : second ∈ elf.phdrs) (secondLoads : second.load = true)
    (secondText : second.exec = true) : first = second := by
  obtain ⟨text, only⟩ := elf.oneText
  have isOnly {phdr : Segment elf.content} (listed : phdr ∈ elf.phdrs)
      (loads : phdr.load = true) (isText : phdr.exec = true) : phdr = text := by
    have member : phdr ∈ elf.phdrs.filter fun phdr => phdr.load && phdr.exec :=
      List.mem_filter.mpr ⟨listed, by rw [loads, isText]; rfl⟩
    rw [only] at member
    exact List.mem_singleton.mp member
  rw [isOnly listed loads isText, isOnly secondListed secondLoads secondText]

/-- The file is loaded in place: the text starts on the first page of the module. -/
def ElfProgram.TextFirst (elf : ElfProgram) (isExe : Bool) : Prop :=
  ∀ phdr ∈ elf.phdrs, phdr.load = true → phdr.exec = true →
    phdr.firstPage = if isExe then x64AbiBase / pageSize else 0

/-- Loading a segment that is in place. -/
theorem Placed.loadSegment_ok (placed : Placed elf isExe base origin)
    (textFirst : elf.TextFirst isExe) {phdr : Segment elf.content}
    (listed : phdr ∈ elf.phdrs) (loads : phdr.load = true) (state : LoadState) :
    ∃ mem, loadSegment base isExe phdr state = .ok ⟨mem,
        vmmapAdd state.vm (phdr.region base isExe).pageNum
          (phdr.region base isExe).npages,
        if phdr.exec then (phdr.region base isExe).npages * pageSize else state.sz⟩ ∧
      ∀ address, mem address =
        if phdr.OnPages base isExe address then
          some (phdr.pageByte (phdr.addr base isExe) address)
        else state.mem address := by
  have window := placed.window listed loads
  have fits := window.length_le
  have some : (phdr.region base isExe).npages ≠ 0 := by
    have occupied := window.occupied
    have startIs := window.start
    have endIs := window.stop
    rw [VmmapEntry.endPage] at endIs
    omega
  refine ⟨_, ?_, window.filled state.mem⟩
  simp only [loadSegment, if_neg some]
  cases isText : phdr.exec with
  | true =>
      -- the module's base is the segment's page
      have atBase : base = (phdr.region base isExe).pageNum * pageSize := by
        rw [window.start, textFirst phdr listed loads isText, placed.baseIs, Nat.add_mul]
        cases isExe <;> rfl
      rw [if_pos rfl, if_pos fits, ← atBase]
      rfl
  | false =>
      obtain ⟨bytes, read⟩ := @MappedMem.exists_read
        (state.mem.mapZero ((phdr.region base isExe).pageNum * pageSize)
          ((phdr.region base isExe).npages * pageSize))
        ((phdr.region base isExe).pageNum * pageSize + phdr.vaddr.toNat % pageSize)
        phdr.bytes.length fun offset below => by
          rw [MappedMem.mapZero_inside (by omega) (by omega)]
          rfl
      rw [if_neg (by simp), read]
      rfl

/-- Two segments of the file share no page when they are loaded. -/
theorem Placed.not_onPages (placed : Placed elf isExe base origin)
    {phdr other : Segment elf.content} {address : Nat}
    (listed : phdr ∈ elf.phdrs) (loads : phdr.load = true)
    (otherListed : other ∈ elf.phdrs) (otherLoads : other.load = true)
    (apart : Spans.Apart Segment.firstPage Segment.stopPage phdr other)
    (onPages : phdr.OnPages base isExe address) :
    ¬ other.OnPages base isExe address := by
  have window := placed.window listed loads
  have otherWindow := placed.window otherListed otherLoads
  simp only [Segment.OnPages, window.start, window.stop, otherWindow.start,
    otherWindow.stop, Spans.Apart, pageSize] at *
  omega

/-- Loading the segments of a file that is in place. -/
theorem Placed.loadImage_ok (placed : Placed elf isExe base origin)
    (textFirst : elf.TextFirst isExe) {phdrs : List (Segment elf.content)}
    (listed : ∀ phdr ∈ phdrs, phdr ∈ elf.phdrs)
    (apart : (phdrs.filter fun phdr => phdr.load).Pairwise
      (Spans.Apart Segment.firstPage Segment.stopPage)) (state : LoadState) :
    ∃ last, loadImage base isExe phdrs state = .ok last ∧
      (∀ phdr ∈ phdrs, phdr.load = true → ∀ address, phdr.OnPages base isExe address →
        last.mem address = some (phdr.pageByte (phdr.addr base isExe) address)) ∧
      (∀ address, (∀ phdr ∈ phdrs, phdr.load = true →
          ¬ phdr.OnPages base isExe address) → last.mem address = state.mem address) ∧
      last.sz = (phdrs.filter fun phdr => phdr.load && phdr.exec).foldl
        (fun _ phdr => (phdr.region base isExe).npages * pageSize) state.sz := by
  induction phdrs generalizing state with
  | nil =>
      exact ⟨state, rfl, (fun _ never => nomatch never), fun _ _ => rfl, rfl⟩
  | cons phdr rest inductionHypothesis =>
      have restListed : ∀ other ∈ rest, other ∈ elf.phdrs := fun other inRest =>
        listed other (List.mem_cons_of_mem _ inRest)
      cases loads : phdr.load with
      | false =>
          rw [List.filter_cons_of_neg (by simp [loads])] at apart
          obtain ⟨last, loaded, inside, outside, size⟩ :=
            inductionHypothesis restListed apart state
          refine ⟨last, ?_, ?_, ?_, ?_⟩
          · rw [loadImage, loads]
            exact loaded
          · intro other inList otherLoads
            rcases List.mem_cons.mp inList with rfl | later
            · rw [loads] at otherLoads
              cases otherLoads
            · exact inside other later otherLoads
          · intro address apartFrom
            exact outside address fun other inRest =>
              apartFrom other (List.mem_cons_of_mem _ inRest)
          · rw [size, List.filter_cons_of_neg (by simp [loads])]
      | true =>
          rw [List.filter_cons_of_pos (by simp [loads])] at apart
          obtain ⟨apartFirst, apartRest⟩ := List.pairwise_cons.mp apart
          obtain ⟨mem, step, memory⟩ := placed.loadSegment_ok textFirst
            (listed phdr List.mem_cons_self) loads state
          obtain ⟨last, loaded, inside, outside, size⟩ :=
            inductionHypothesis restListed apartRest _
          refine ⟨last, ?_, ?_, ?_, ?_⟩
          · rw [loadImage, loads, if_pos rfl, step]
            exact loaded
          · intro other inList otherLoads address onPages
            rcases List.mem_cons.mp inList with rfl | later
            · have kept := outside address fun next inRest nextLoads =>
                placed.not_onPages (listed other List.mem_cons_self) loads
                  (restListed next inRest) nextLoads
                  (apartFirst next (List.mem_filter.mpr ⟨inRest, nextLoads⟩)) onPages
              exact kept.trans ((memory address).trans (if_pos onPages))
            · exact inside other later otherLoads address onPages
          · intro address apartFrom
            have kept := outside address fun other inRest =>
              apartFrom other (List.mem_cons_of_mem _ inRest)
            exact kept.trans ((memory address).trans
              (if_neg (apartFrom phdr List.mem_cons_self loads)))
          · rw [size]
            cases isText : phdr.exec with
            | false => rw [List.filter_cons_of_neg (by simp [isText])]; rfl
            | true => rw [List.filter_cons_of_pos (by simp [isText, loads])]; rfl

end Placing

section Regions

variable {content : List UInt8} {base : Nat} {isExe : Bool}
  {phdrs : List (Segment content)} {state last : LoadState}

/-- What loading a segment does to the pager's regions. -/
theorem loadSegment_vm {phdr : Segment content}
    (loaded : loadSegment base isExe phdr state = .ok last) :
    (phdr.region base isExe).npages ≠ 0 ∧
      last.vm = vmmapAdd state.vm (phdr.region base isExe).pageNum
        (phdr.region base isExe).npages := by
  simp only [loadSegment] at loaded
  split at loaded
  next => split at loaded <;> cases loaded
  next some =>
    refine ⟨some, ?_⟩
    split at loaded
    next =>
      split at loaded
      next => cases loaded; rfl
      next => cases loaded
    next =>
      split at loaded
      next => cases loaded; rfl
      next => cases loaded

/-- The regions are those of the loop over the program headers. -/
theorem loadImage_vm (loaded : loadImage base isExe phdrs state = .ok last) :
    loadSegments base isExe (phdrs.map Segment.toPhdr) state.vm = .ok last.vm := by
  induction phdrs generalizing state with
  | nil =>
      cases loaded
      rfl
  | cons phdr rest inductionHypothesis =>
      rw [loadImage] at loaded
      rw [List.map_cons, loadSegments]
      cases loads : phdr.load with
      | false =>
          rw [loads] at loaded
          exact inductionHypothesis loaded
      | true =>
          rw [loads, if_pos rfl] at loaded
          obtain ⟨next, step, later⟩ := bind_eq_ok.mp loaded
          obtain ⟨some, vmIs⟩ := loadSegment_vm step
          have rest := inductionHypothesis later
          rw [vmIs] at rest
          exact (if_pos rfl).trans ((if_neg some).trans rest)

/-- The loop over the program headers adds their pages. -/
theorem covers_loadSegments {phdrs : List Phdr} {vm result : Vmmap}
    (loaded : loadSegments base isExe phdrs vm = .ok result) (page : Nat) :
    result.Covers page ↔ vm.Covers page ∨ ∃ phdr ∈ phdrs, phdr.load = true ∧
      (phdr.region base isExe).pageNum ≤ page ∧
        page < (phdr.region base isExe).endPage := by
  induction phdrs generalizing vm with
  | nil =>
      cases loaded
      simp
  | cons phdr rest inductionHypothesis =>
      rw [loadSegments] at loaded
      cases loads : phdr.load with
      | false =>
          rw [loads] at loaded
          rw [inductionHypothesis loaded]
          simp [loads]
      | true =>
          rw [loads, if_pos rfl] at loaded
          simp only at loaded
          split at loaded
          next => split at loaded <;> cases loaded
          next =>
            rw [inductionHypothesis loaded, covers_vmmapAdd, or_assoc]
            simp [loads, VmmapEntry.endPage]

/-- Loading changes the memory on the pages that it maps only. -/
theorem loadImage_outside {address : Nat}
    (loaded : loadImage base isExe phdrs state = .ok last)
    (outside : ∀ phdr ∈ phdrs, phdr.load = true →
      if phdr.exec then
        address < base ∨ base + (phdr.region base isExe).npages * pageSize ≤ address
      else ¬ phdr.OnPages base isExe address)
    (inPage : ∀ phdr ∈ phdrs, phdr.load = true → phdr.vaddr.toNat % pageSize +
      phdr.bytes.length ≤ (phdr.region base isExe).npages * pageSize) :
    last.mem address = state.mem address := by
  induction phdrs generalizing state with
  | nil =>
      cases loaded
      rfl
  | cons phdr rest inductionHypothesis =>
      have later {next : LoadState} (loaded : loadImage base isExe rest next = .ok last) :
          last.mem address = next.mem address :=
        inductionHypothesis loaded
          (fun other inRest => outside other (List.mem_cons_of_mem _ inRest))
          (fun other inRest => inPage other (List.mem_cons_of_mem _ inRest))
      rw [loadImage] at loaded
      cases loads : phdr.load with
      | false =>
          rw [loads] at loaded
          exact later loaded
      | true =>
          rw [loads, if_pos rfl] at loaded
          obtain ⟨next, step, loaded⟩ := bind_eq_ok.mp loaded
          refine (later loaded).trans ?_
          have apart := outside phdr List.mem_cons_self loads
          have fits := inPage phdr List.mem_cons_self loads
          have stopIs : (phdr.region base isExe).pageNum * pageSize +
              (phdr.region base isExe).npages * pageSize =
                (phdr.region base isExe).endPage * pageSize := by
            rw [VmmapEntry.endPage, Nat.add_mul]
          simp only [loadSegment] at step
          split at step
          next => split at step <;> cases step
          next =>
            split at step
            next isText =>
              rw [if_pos isText] at apart
              cases step
              exact (MappedMem.put_outside (by omega)).trans
                (MappedMem.mapZero_outside (by omega))
            next isData =>
              rw [if_neg isData, Segment.OnPages] at apart
              split at step
              next =>
                cases step
                exact (MappedMem.put_outside (by omega)).trans
                  (MappedMem.mapZero_outside (by omega))
              next => cases step

end Regions

section Image

variable {elf : ElfProgram} {isExe : Bool} {base origin : Nat} {vm : Vmmap}
  {mem result : MappedMem}

/-- `.got.plt` is there, on a page of its own. -/
def ElfProgram.GotPltAligned (elf : ElfProgram) : Prop :=
  elf.instrumented = true → elf.gotPltSize ≠ 0 ∧ elf.gotPlt.toNat % pageSize = 0

theorem Placed.loadAddr_aligned (placed : Placed elf isExe base origin)
    (vaddr : Nat) : loadAddr base isExe vaddr % pageSize = vaddr % pageSize := by
  rw [loadAddr, placed.baseIs]
  cases isExe <;> simp only [sub64, x64AbiBase, pageSize, Bool.false_eq_true, if_false,
    if_true] <;> omega

theorem roundToPage_eq_zero {size : Nat} (small : size ≤ 2 ^ 48) :
    roundToPage size = 0 ↔ size = 0 := by
  rw [roundToPage, Nat.mod_eq_of_lt (by simp only [pageSize]; omega)]
  simp only [pageSize]
  omega

theorem ElfProgram.gotPltSize_le (elf : ElfProgram) : elf.gotPltSize.toNat ≤ 2 ^ 48 := by
  by_cases absent : elf.gotPltSize = 0
  · rw [absent]
    decide
  · obtain ⟨phdr, _, _, _, stop⟩ := elf.gotPltInside absent
    have fits := phdr.fits
    simp only [Phdr.vaddrEnd] at stop
    omega

/-- Mapping `.got.plt` anew changes no byte, if it is done. -/
theorem Placed.remapGotPlt_ok (placed : Placed elf isExe base origin)
    (returned : remapGotPlt base isExe elf mem = .ok result) :
    result = mem ∧ elf.GotPltAligned := by
  rw [remapGotPlt] at returned
  by_cases instrumented : elf.instrumented = true
  · rw [if_pos instrumented] at returned
    simp only at returned
    split at returned
    next => cases returned
    next bytes read =>
      split at returned
      next aligned =>
        cases returned
        refine ⟨MappedMem.put_back read, fun _ => ⟨?_, ?_⟩⟩
        · rintro absent
          rw [absent] at aligned
          exact aligned.2 rfl
        · rw [← placed.loadAddr_aligned]
          exact aligned.1
      next => cases returned
  · rw [if_neg instrumented] at returned
    cases returned
    exact ⟨rfl, fun never => absurd never instrumented⟩

/-- `.got.plt` is mapped anew when it is mapped and starts on a page. -/
theorem Placed.remapGotPlt_of_aligned (placed : Placed elf isExe base origin)
    (aligned : elf.GotPltAligned)
    (mapped : ∀ phdr ∈ elf.phdrs, phdr.load = true → ∀ address,
      phdr.OnPages base isExe address → (mem address).isSome) :
    remapGotPlt base isExe elf mem = .ok mem := by
  rw [remapGotPlt]
  by_cases instrumented : elf.instrumented = true
  · obtain ⟨some, onPage⟩ := aligned instrumented
    obtain ⟨phdr, listed, loads, low, high⟩ := elf.gotPltInside some
    have window := placed.window listed loads
    have fits := placed.fits phdr listed loads
    have addrIs : loadAddr base isExe elf.gotPlt.toNat =
        origin * pageSize + elf.gotPlt.toNat := by
      rw [loadAddr, placed.baseIs]
      cases isExe <;> simp only [sub64, x64AbiBase, Bool.false_eq_true, if_false,
        if_true] at * <;> omega
    have sizeIs : roundToPage elf.gotPltSize.toNat =
        (elf.gotPltSize.toNat + (pageSize - 1)) / pageSize * pageSize := by
      have small := elf.gotPltSize_le
      rw [roundToPage, Nat.mod_eq_of_lt (by simp only [pageSize]; omega)]
    obtain ⟨bytes, read⟩ := @MappedMem.exists_read mem
      (loadAddr base isExe elf.gotPlt.toNat) (roundToPage elf.gotPltSize.toNat)
      fun offset below => by
        apply mapped phdr listed loads
        rw [Segment.OnPages, window.start, window.stop, addrIs]
        rw [sizeIs] at below
        simp only [Segment.firstPage, Segment.stopPage, pageSize] at *
        omega
    have nonempty : roundToPage elf.gotPltSize.toNat ≠ 0 := by
      rw [Ne, roundToPage_eq_zero elf.gotPltSize_le]
      exact fun zero => some (UInt64.toNat_inj.mp zero)
    rw [if_pos instrumented]
    simp only [read]
    rw [if_pos ⟨(placed.loadAddr_aligned _).trans onPage, nonempty⟩,
      MappedMem.put_back read]
  · rw [if_neg instrumented]

/-- The module is in memory as the file has it, and nothing else has changed. -/
structure Reproduced (isExe : Bool) (elf : ElfProgram) (vm : Vmmap) (mem : MappedMem)
    (loaded : MappedElf) : Prop where
  bytes : ∀ phdr ∈ elf.phdrs, phdr.load = true → ∀ index, index < phdr.memsz.toNat →
    loaded.mem (phdr.addr loaded.baseAddr isExe + index) = some (phdr.byteAt index)
  text : ∀ phdr ∈ elf.phdrs, phdr.load = true → phdr.exec = true →
    ∀ index, index < phdr.memsz.toNat →
      loaded.baseAddr ≤ phdr.addr loaded.baseAddr isExe + index ∧
        phdr.addr loaded.baseAddr isExe + index < loaded.baseAddr + loaded.sz
  pages : ∀ page, loaded.vm.Covers page ↔ vm.Covers page ∨
    ∃ phdr ∈ elf.phdrs, phdr.load = true ∧
      (phdr.region loaded.baseAddr isExe).pageNum ≤ page ∧
        page < (phdr.region loaded.baseAddr isExe).endPage
  others : ∀ address, (∀ phdr ∈ elf.phdrs, phdr.load = true →
    ¬ phdr.OnPages loaded.baseAddr isExe address) → loaded.mem address = mem address

/-- The first or the last byte of a text that is out of place is mapped nowhere. -/
theorem Placed.text_unmapped (placed : Placed elf isExe base origin)
    {last : LoadState} {text : Segment elf.content}
    (loaded : loadImage base isExe elf.phdrs ⟨mem, vm, 0⟩ = .ok last)
    (listed : text ∈ elf.phdrs) (loads : text.load = true) (isText : text.exec = true)
    (away : text.firstPage ≠ if isExe then x64AbiBase / pageSize else 0)
    (unmapped : ∀ address, text.OnPages base isExe address → mem address = none) :
    ∃ index, index < text.memsz.toNat ∧
      last.mem (text.addr base isExe + index) = none := by
  have window := placed.window listed loads
  have nonempty := elf.nonempty text listed loads
  have outside {index : Nat} (below : index < text.memsz.toNat)
      (beyond : text.addr base isExe + index < base ∨
        base + (text.region base isExe).npages * pageSize ≤
          text.addr base isExe + index) :
      last.mem (text.addr base isExe + index) = none := by
    have onPages : text.OnPages base isExe (text.addr base isExe + index) := by
      have inPage := window.inPage
      have inside := window.inside
      exact ⟨by omega, by omega⟩
    refine (loadImage_outside loaded (fun phdr inFile phdrLoads => ?_)
      fun phdr inFile phdrLoads =>
        (placed.window inFile phdrLoads).length_le).trans (unmapped _ onPages)
    cases phdrText : phdr.exec with
    | true =>
        rw [elf.text_unique inFile phdrLoads phdrText listed loads isText, if_pos rfl]
        exact beyond
    | false =>
        rw [if_neg (by simp)]
        have distinct : text ≠ phdr := by
          rintro rfl
          rw [isText] at phdrText
          cases phdrText
        exact placed.not_onPages listed loads inFile phdrLoads
          (elf.apart_of_ne listed loads inFile phdrLoads distinct) onPages
  have baseIs : base =
      (origin + if isExe then x64AbiBase / pageSize else 0) * pageSize := by
    rw [placed.baseIs, Nat.add_mul]
    cases isExe <;> rfl
  generalize (if isExe then x64AbiBase / pageSize else 0) = first at away baseIs
  have startIs := window.start
  have close := window.close
  have address := window.address
  rw [VmmapEntry.endPage] at close
  rcases Nat.lt_or_gt_of_ne away with before | behind
  · refine ⟨0, nonempty, outside nonempty (.inl ?_)⟩
    simp only [Segment.firstPage, pageSize] at *
    omega
  · refine ⟨text.memsz.toNat - 1, by omega, outside (by omega) (.inr ?_)⟩
    simp only [pageSize] at *
    omega

/-- A file that is loaded as it is has its text first. -/
theorem textFirst_of_reproduced (free : TargetFree isExe elf vm mem base)
    {loaded : MappedElf} (returned : loadElfImage isExe elf vm mem = .ok loaded)
    (reproduced : Reproduced isExe elf vm mem loaded) :
    elf.TextFirst isExe ∧ elf.GotPltAligned := by
  obtain ⟨origin, placed⟩ := free.placed
  rw [loadElfImage] at returned
  obtain ⟨own, based, returned⟩ := bind_eq_ok.mp returned
  rw [free.based] at based
  cases based
  obtain ⟨last, image, returned⟩ := bind_eq_ok.mp returned
  obtain ⟨final, remapped, returned⟩ := bind_eq_ok.mp returned
  cases returned
  obtain ⟨rfl, aligned⟩ := placed.remapGotPlt_ok remapped
  refine ⟨fun text listed loads isText => ?_, aligned⟩
  by_contra away
  obtain ⟨index, below, nothing⟩ := placed.text_unmapped image listed loads isText away
    (free.unmapped text listed loads)
  have there := nothing.symm.trans (reproduced.bytes text listed loads index below)
  cases there

/-- A file whose text is first is loaded as it is. -/
theorem reproduced_of_textFirst (free : TargetFree isExe elf vm mem base)
    (textFirst : elf.TextFirst isExe) (aligned : elf.GotPltAligned) :
    ∃ loaded, loadElfImage isExe elf vm mem = .ok loaded ∧
      Reproduced isExe elf vm mem loaded := by
  obtain ⟨origin, placed⟩ := free.placed
  obtain ⟨last, image, inside, outside, size⟩ := placed.loadImage_ok textFirst
    (fun _ listed => listed) elf.apart ⟨mem, vm, 0⟩
  have mapped : ∀ phdr ∈ elf.phdrs, phdr.load = true → ∀ address,
      phdr.OnPages base isExe address → (last.mem address).isSome := by
    intro phdr listed loads address onPages
    rw [inside phdr listed loads address onPages]
    rfl
  have remapped := placed.remapGotPlt_of_aligned aligned mapped
  refine ⟨⟨last.mem, last.vm, base, last.sz, loadAddr base isExe elf.gotPlt.toNat,
    (base + elf.entry.toNat) % 2 ^ 64⟩, ?_, ?_⟩
  · rw [loadElfImage]
    exact bind_eq_ok.mpr ⟨_, free.based, bind_eq_ok.mpr ⟨_, image,
      bind_eq_ok.mpr ⟨_, remapped, rfl⟩⟩⟩
  refine {
    bytes := fun phdr listed loads index below => ?_
    text := fun phdr listed loads isText index below => ?_
    pages := fun page => ?_
    others := outside
  }
  · have window := placed.window listed loads
    have inPage := window.inPage
    have stop := window.inside
    change last.mem (phdr.addr base isExe + index) = _
    rw [inside phdr listed loads _ ⟨by omega, by omega⟩, Segment.pageByte,
      if_pos (Nat.le_add_right _ _), Nat.add_sub_cancel_left]
  · have window := placed.window listed loads
    have inPage := window.inPage
    have stop := window.inside
    have startIs := window.start
    rw [textFirst phdr listed loads isText] at startIs
    have baseIs : base = (phdr.region base isExe).pageNum * pageSize := by
      rw [startIs, placed.baseIs, Nat.add_mul]
      cases isExe <;> rfl
    have sizeIs : last.sz = (phdr.region base isExe).npages * pageSize := by
      obtain ⟨text, only⟩ := elf.oneText
      have isOnly : text ∈ elf.phdrs.filter fun phdr => phdr.load && phdr.exec := by
        rw [only]
        exact List.mem_singleton_self text
      obtain ⟨textListed, both⟩ := List.mem_filter.mp isOnly
      rw [Bool.and_eq_true] at both
      rw [size, only, elf.text_unique textListed both.1 both.2 listed loads isText]
      rfl
    have stopIs := @Segment.stopIs elf isExe base phdr
    change base ≤ phdr.addr base isExe + index ∧
      phdr.addr base isExe + index < base + last.sz
    omega
  · refine (covers_loadSegments (loadImage_vm image) page).trans (or_congr_right ?_)
    simp only [List.mem_map, exists_exists_and_eq_and]

/--
For any file and any free place for it: `load_elf` reproduces the file in memory
exactly when its text is on the first page of the module, and `.got.plt` of an
instrumented module starts on a page.
-/
theorem reproduced_iff (free : TargetFree isExe elf vm mem base) :
    (∃ loaded, loadElfImage isExe elf vm mem = .ok loaded ∧
        Reproduced isExe elf vm mem loaded) ↔
      elf.TextFirst isExe ∧ elf.GotPltAligned := by
  constructor
  · rintro ⟨loaded, returned, reproduced⟩
    exact textFirst_of_reproduced free returned reproduced
  · rintro ⟨textFirst, aligned⟩
    exact reproduced_of_textFirst free textFirst aligned

/-- A place that nothing has been loaded to is free for a program. -/
theorem TargetFree.program (elf : ElfProgram) :
    TargetFree true elf [] (fun _ => none) x64AbiBase where
  based := rfl
  library := fun never => nomatch never
  executable := by
    rintro _ _ _ _ page _ _ ⟨_, never, _⟩
    cases never
  unmapped := fun _ _ _ _ _ => rfl

/-- A program of two instructions: `nop` and `ret`. -/
def smallProgram : ElfProgram where
  content := [0x90, 0xc3]
  phdrs := [⟨⟨true, true, 0x400000, 2, by decide⟩, 0, 2, by decide, by decide⟩]
  instrumented := false
  gotPlt := 0
  gotPltSize := 0
  entry := 0x400000
  nonempty := by decide
  apart := List.pairwise_singleton _ _
  oneText := ⟨_, rfl⟩
  gotPltInside := fun never => absurd rfl never

theorem smallProgram_reproduced :
    ∃ loaded, loadElfImage true smallProgram [] (fun _ => none) = .ok loaded ∧
      Reproduced true smallProgram [] (fun _ => none) loaded := by
  refine (reproduced_iff (TargetFree.program smallProgram)).mpr ⟨?_, ?_⟩
  · intro phdr listed _ _
    rw [List.mem_singleton.mp listed]
    decide
  · exact fun never => nomatch never

/-- The same program, with its headers in a segment of their own before the text. -/
def separateProgram : ElfProgram where
  content := [0x7f, 0x90, 0xc3]
  phdrs := [⟨⟨true, false, 0x400000, 1, by decide⟩, 0, 1, by decide, by decide⟩,
    ⟨⟨true, true, 0x401000, 2, by decide⟩, 1, 2, by decide, by decide⟩]
  instrumented := false
  gotPlt := 0
  gotPltSize := 0
  entry := 0x401000
  nonempty := by decide
  apart := List.pairwise_pair.mpr (.inl (by decide))
  oneText := ⟨_, rfl⟩
  gotPltInside := fun never => absurd rfl never

/-- A text that is not on the first page of its module is mapped over another one. -/
theorem text_misplaced :
    ¬ ∀ (isExe : Bool) (elf : ElfProgram) (vm : Vmmap) (mem : MappedMem) (base : Nat),
      TargetFree isExe elf vm mem base →
        ∃ loaded, loadElfImage isExe elf vm mem = .ok loaded ∧
          Reproduced isExe elf vm mem loaded := by
  intro all
  obtain ⟨loaded, returned, reproduced⟩ := all true separateProgram [] (fun _ => none)
    x64AbiBase (TargetFree.program separateProgram)
  obtain ⟨textFirst, _⟩ := textFirst_of_reproduced
    (TargetFree.program separateProgram) returned reproduced
  have onFirst := textFirst _ (List.mem_cons_of_mem _ List.mem_cons_self) rfl rfl
  exact absurd onFirst (by decide)

end Image

end Mcfi
