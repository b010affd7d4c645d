import Mcfi.CodeBitmap
import Mcfi.JitProcess
import Mcfi.JitState
import Mcfi.StaticPages

namespace Mcfi

open ByteMem

/-!
# Executable generated code is verified code

The bitmap of a code heap works on bytes and protection works on pages, so a
byte that is marked as code may lie on a page that the program writes and makes
executable again later.  What keeps such a page from becoming executable is the
check of fixed mappings in a heap; this module says when that check is enough.
-/

section Statement

/-- A byte is marked as code of some heap. -/
def CodeAt (modules : List CodeModule) (addr : Nat) : Prop :=
  ∃ heap ∈ modules, heap.codeHeap = true ∧ heap.Holds addr ∧
    marked heap.codeDataBitmap (addr - heap.baseAddr) = true

/-- A page belongs to a code heap. -/
def HeapPage (modules : List CodeModule) (page : Nat) : Prop :=
  ∃ heap ∈ modules, heap.codeHeap = true ∧ heap.TextPage page

/-- Every executable byte that is marked as code is the one last verified. -/
def JitProcess.Intact (process : JitProcess) : Prop :=
  ∀ addr, CodeAt process.modules addr →
    ∀ page, process.space.pages (addr / pageSize) = some page →
      protExec page.prot →
        process.content page.frame addr = process.verified addr

/--
Heaps as `create_code_heap` leaves them: without code, and mapped at their own
pages, none of which is writable and executable.
-/
structure JitProcess.Fresh (process : JitProcess) : Prop where
  noCode : ∀ addr, ¬ CodeAt process.modules addr
  ownPlace : ∀ page mapped own, process.space.pages page = some mapped →
    mapped.frame = .own own → own = page
  heapPages : ∀ page mapped, HeapPage process.modules page →
    process.space.pages page = some mapped →
      mapped.frame = .own page ∧
        (protWrite mapped.prot && protExec mapped.prot) = false

/--
What the checks of the calls are meant to ensure: a data fill that `which_area`
lets through writes no code, a fixed mapping that makes pages of a heap
executable finds no code on the whole of these pages, and any other mapping
stays off the heaps.
-/
def JitAction.Careful (process : JitProcess) : JitAction → Prop
  | fill _ handle dst src extra =>
      ∀ index heap, getCodeHeap handle process.modules = .ok (index, heap) →
        (fillFlags extra).code = false →
          whichArea heap.codeDataBitmap (dst - heap.baseAddr) src.length =
            .data →
            ∀ addr, dst ≤ addr → addr < dst + src.length →
              ¬ CodeAt process.modules addr
  | mmap start len prot flags _ _ =>
      match fixedInHeap process.space.sandbox start.toNat len.toNat flags with
      | some _ =>
          protExec prot → ∀ addr, start.toNat ≤ addr →
            addr < start.toNat + roundToPage len.toNat →
              ¬ CodeAt process.modules addr
      | none =>
          ∀ page, mmapPage process.space.sandbox.vm start.toNat len.toNat
              flags = some page →
            ∀ heap ∈ process.modules, heap.codeHeap = true →
              ¬ Meets (page * pageSize % 2 ^ 64) (roundToPage len.toNat)
                heap.baseAddr heap.sz
  | mprotect _ _ _ => True
  | munmap _ _ => True
  | store _ _ => True

end Statement

section Filling

variable {process after : JitProcess}

/-- A list is read as a whole when each of its elements is. -/
private theorem mapM_some
    {α β : Type} {f : α → Option β} {xs : List α} {ys : List β}
    (read : xs.mapM f = some ys) :
    ys.length = xs.length ∧
      ∀ (k : Nat) (x : α), xs[k]? = some x → f x = ys[k]? := by
  induction xs generalizing ys with
  | nil =>
      cases read
      simp
  | cons first rest inductionHypothesis =>
      simp only [List.mapM_cons, Option.pure_def, Option.bind_eq_bind,
        Option.bind_eq_some_iff, Option.some.injEq] at read
      obtain ⟨y, head, later, tail, rfl⟩ := read
      obtain ⟨sameLength, each⟩ := inductionHypothesis tail
      refine ⟨by simp [sameLength], fun k x found => ?_⟩
      cases k with
      | zero =>
          cases found
          exact head
      | succ k => exact each k x found

/-- What `readBytes` returns are the bytes that can be read. -/
theorem readBytes_ok
    {addr len : Nat} {bytes : List UInt8}
    (returned : process.readBytes addr len = .ok bytes) :
    bytes.length = len ∧
      ∀ k, k < len → process.byte? (addr + k) = bytes[k]? := by
  unfold JitProcess.readBytes at returned
  split at returned
  next found read =>
    cases returned
    obtain ⟨sameLength, each⟩ := mapM_some read
    rw [List.length_range] at sameLength
    exact ⟨sameLength, fun k below => each k k (List.getElem?_range below)⟩
  next => cases returned

/-- What a returned `code_heap_fill` may have done. -/
inductive Filled (index : Nat) (heap : CodeModule) (dst : Nat)
    (src : List UInt8) (extra : Nat) (before : JitProcess) :
    JitProcess → Prop where
  | unchanged : Filled index heap dst src extra before before
  | data
      (asData : (fillFlags extra).code = false)
      (area : whichArea heap.codeDataBitmap (dst - heap.baseAddr) src.length =
        .data) :
      Filled index heap dst src extra before
        { before with osb := before.osb.storeBytes dst src }
  | replaced {start : Nat} {patch : List UInt8} {table : ByteMem} :
      Filled index heap dst src extra before
        { before with
          table := table
          osb := before.osb.storeBytes start patch
          verified := before.verified.storeBytes start patch }
  | installed
      {osb table : ByteMem} {bytes : List UInt8}
      (aligned : dst % 8 = 0) (low : heap.baseAddr ≤ dst)
      (osbIs : osb = before.osb ∨ osb = before.osb.storeBytes dst src)
      (read : ({ before with osb := osb } : JitProcess).readBytes dst
        src.length = .ok bytes) :
      Filled index heap dst src extra before
        (JitProcess.setModule
          { before with
            osb := osb
            table := table
            verified := before.verified.storeBytes dst bytes }
          index
          { heap with
            codeDataBitmap := setCode heap.codeDataBitmap
              (dst - heap.baseAddr) src.length })

/-- What a returned installation has done. -/
private theorem installIn_ok
    {index dst len : Nat} {heap : CodeModule}
    (returned : installIn index heap dst len process = .ok after) :
    dst % 8 = 0 ∧ ∃ bytes table, process.readBytes dst len = .ok bytes ∧
      after = JitProcess.setModule
        { process with
          table := table
          verified := process.verified.storeBytes dst bytes }
        index
        { heap with
          codeDataBitmap := setCode heap.codeDataBitmap
            (dst - heap.baseAddr) len } := by
  unfold installIn at returned
  rw [bind_eq_ok] at returned
  obtain ⟨_, aligned, returned⟩ := returned
  split at returned
  next => cases returned
  next v _ =>
    rw [bind_eq_ok] at returned
    obtain ⟨bytes, read, returned⟩ := returned
    rw [bind_eq_ok] at returned
    obtain ⟨tary, _, returned⟩ := returned
    cases returned
    rw [check_eq_ok, beq_iff_eq] at aligned
    exact ⟨aligned, bytes, _, read, rfl⟩

/-- What a returned replacement has done. -/
private theorem replaceIn_ok
    {bufferAddr dst : Nat} {heap : CodeModule} {area : Area}
    {patch : List UInt8}
    (returned : replaceIn bufferAddr heap area dst patch process = .ok after) :
    after = process ∨ ∃ table, after =
      { process with
        table := table
        osb := process.osb.storeBytes dst patch
        verified := process.verified.storeBytes dst patch } := by
  unfold replaceIn at returned
  split at returned
  next =>
    cases returned
    exact Or.inl rfl
  next =>
    split at returned
    next => cases returned
    next =>
      split at returned
      next => cases returned
      next =>
        rw [bind_eq_ok] at returned
        obtain ⟨tary, _, returned⟩ := returned
        cases returned
        exact Or.inr ⟨_, rfl⟩

/-- The cases of a returned `code_heap_fill`. -/
theorem codeHeapFillIn_ok
    {bufferAddr dst extra : Nat} {handle : Option Nat} {src : List UInt8}
    (returned : codeHeapFillIn bufferAddr handle dst src extra process =
      .ok after) :
    ∃ index heap, getCodeHeap handle process.modules = .ok (index, heap) ∧
      Filled index heap dst src extra process after := by
  unfold codeHeapFillIn at returned
  rw [bind_eq_ok] at returned
  obtain ⟨⟨index, heap⟩, named, returned⟩ := returned
  refine ⟨index, heap, named, ?_⟩
  rw [bind_eq_ok] at returned
  obtain ⟨_, fits, returned⟩ := returned
  have low := (checkFill_ok fits).1
  simp only at returned
  split at returned
  next asCode =>
    unfold fillCodeIn at returned
    simp only at returned
    split at returned
    next =>
      rw [bind_eq_ok] at returned
      obtain ⟨_, _, returned⟩ := returned
      obtain ⟨aligned, bytes, table, read, rfl⟩ := installIn_ok returned
      exact .installed aligned low (Or.inr rfl) read
    next =>
      split at returned
      next =>
        obtain ⟨aligned, bytes, table, read, rfl⟩ := installIn_ok returned
        exact .installed aligned low (Or.inl rfl) read
      next =>
        split at returned
        next =>
          rcases replaceIn_ok returned with rfl | ⟨table, rfl⟩
          · exact .unchanged
          · exact .replaced
        next =>
          cases returned
          exact .unchanged
  next asData =>
    split at returned
    next => cases returned
    next =>
      split at returned
      next => cases returned
      next start _ =>
        rw [bind_eq_ok] at returned
        obtain ⟨before, _, returned⟩ := returned
        rw [bind_eq_ok] at returned
        obtain ⟨_, _, returned⟩ := returned
        have replaces : (fillFlags 17).copy = false ∧
            (fillFlags 17).verify = false ∧ (fillFlags 17).replace = true := by
          decide
        simp only [fillCodeIn, replaces, Bool.false_eq_true, if_false, if_true]
          at returned
        rcases replaceIn_ok returned with rfl | ⟨table, rfl⟩
        · exact .unchanged
        · exact .replaced
    next area =>
      cases returned
      exact .data (Bool.eq_false_iff.mpr asData) area

end Filling

section Invariant

/-- What the steps keep of the pages of a process. -/
structure HeapsMapped (modules : List CodeModule) (verified osb : ByteMem)
    (pages : PageMap) : Prop where
  ownPlace : ∀ page mapped own, pages page = some mapped →
    mapped.frame = .own own → own = page
  heapPages : ∀ page mapped, HeapPage modules page →
    pages page = some mapped →
      mapped.frame = .own page ∧
        (protWrite mapped.prot && protExec mapped.prot) = false
  agrees : ∀ addr, CodeAt modules addr →
    ∀ mapped, pages (addr / pageSize) = some mapped →
      protExec mapped.prot → osb addr = verified addr

/-- The invariant of a process with code heaps. -/
def JitProcess.Sound (process : JitProcess) : Prop :=
  HeapsMapped process.modules process.verified process.osb
    process.space.pages

/-- A byte of a module lies on one of its pages. -/
theorem CodeModule.Holds.textPage
    {m : CodeModule} {addr : Nat} (holds : m.Holds addr) :
    m.TextPage (addr / pageSize) := by
  have baseAligned := m.baseAligned
  have sizeAligned := m.sizeAligned
  obtain ⟨low, high⟩ := holds
  simp only [CodeModule.TextPage, pageSize] at *
  omega

/-- Code lies on the pages of its heap. -/
theorem CodeAt.heapPage
    {modules : List CodeModule} {addr : Nat} (code : CodeAt modules addr) :
    HeapPage modules (addr / pageSize) := by
  obtain ⟨heap, member, isHeap, holds, _⟩ := code
  exact ⟨heap, member, isHeap, holds.textPage⟩

variable {process after : JitProcess}

/-- The invariant is what the property needs. -/
theorem JitProcess.Sound.intact (sound : process.Sound) : process.Intact := by
  intro addr code page found executable
  have own := (sound.heapPages _ page code.heapPage found).1
  have sameAddr : addr / pageSize * pageSize + addr % pageSize = addr :=
    Nat.div_add_mod' addr pageSize
  rw [own, JitProcess.content, sameAddr]
  exact sound.agrees addr code page found executable

/-- Fresh heaps satisfy the invariant. -/
theorem JitProcess.Fresh.sound (fresh : process.Fresh) : process.Sound where
  ownPlace := fresh.ownPlace
  heapPages := fresh.heapPages
  agrees := fun addr code => absurd code (fresh.noCode addr)

section Replaced

variable {modules : List CodeModule} {index : Nat} {heap : CodeModule}
  {bmp : ByteMem}

/-- A changed bitmap leaves the heaps where they are. -/
theorem heapPage_setBitmap
    (here : modules[index]? = some heap) {page : Nat}
    (owned : HeapPage (modules.set index { heap with codeDataBitmap := bmp })
      page) :
    HeapPage modules page := by
  obtain ⟨m, member, isHeap, inside⟩ := owned
  rcases List.mem_or_eq_of_mem_set member with old | rfl
  · exact ⟨m, old, isHeap, inside⟩
  · exact ⟨heap, List.mem_of_getElem? here, isHeap, inside⟩

/-- Code of a changed bitmap was code before, or is marked by the change. -/
theorem codeAt_setBitmap
    {addr : Nat} (code : CodeAt
      (modules.set index { heap with codeDataBitmap := bmp }) addr) :
    CodeAt modules addr ∨
      (heap.codeHeap = true ∧ heap.Holds addr ∧
        marked bmp (addr - heap.baseAddr) = true) := by
  obtain ⟨m, member, isHeap, holds, isMarked⟩ := code
  rcases List.mem_or_eq_of_mem_set member with old | rfl
  · exact Or.inl ⟨m, old, isHeap, holds, isMarked⟩
  · exact Or.inr ⟨isHeap, holds, isMarked⟩

end Replaced

/-- Bytes that are read through a heap's own pages are the heap's memory. -/
theorem read_own
    {modules : List CodeModule} {verified osb : ByteMem} {addr : Nat}
    {byte : UInt8}
    (mapped : HeapsMapped modules verified osb process.space.pages)
    (owned : HeapPage modules (addr / pageSize))
    (read : process.byte? addr = some byte) : process.osb addr = byte := by
  unfold JitProcess.byte? at read
  split at read
  next page found =>
    split at read
    next =>
      have own := (mapped.heapPages _ page owned found).1
      have sameAddr : addr / pageSize * pageSize + addr % pageSize = addr :=
        Nat.div_add_mod' addr pageSize
      rw [own, JitProcess.content, sameAddr] at read
      exact Option.some.inj read
    next => cases read
  next => cases read

/-- Writing to the memory of the heaps leaves what a read can see elsewhere. -/
private theorem sound_osb
    (sound : process.Sound) {osb verified table : ByteMem}
    (agrees : ∀ addr, CodeAt process.modules addr →
      ∀ mapped, process.space.pages (addr / pageSize) = some mapped →
        protExec mapped.prot → process.osb addr = process.verified addr →
          osb addr = verified addr) :
    JitProcess.Sound
      { process with table := table, osb := osb, verified := verified } where
  ownPlace := sound.ownPlace
  heapPages := sound.heapPages
  agrees := fun addr code mapped found executable =>
    agrees addr code mapped found executable
      (sound.agrees addr code mapped found executable)

/-- A careful fill keeps the invariant. -/
theorem JitProcess.Sound.filled
    {index dst extra : Nat} {handle : Option Nat} {heap : CodeModule}
    {bufferAddr : Nat} {src : List UInt8}
    (sound : process.Sound)
    (named : getCodeHeap handle process.modules = .ok (index, heap))
    (careful : (JitAction.fill bufferAddr handle dst src extra).Careful process)
    (filled : Filled index heap dst src extra process after) :
    after.Sound := by
  cases filled with
  | unchanged => exact sound
  | data asData area =>
      refine sound_osb sound fun addr code _ _ _ same => ?_
      have spared := careful index heap named asData area
      rw [storeBytes_outside, same]
      by_contra inside
      rw [not_or, not_lt, not_le] at inside
      exact spared addr inside.1 inside.2 code
  | replaced =>
      exact sound_osb sound fun addr _ _ _ _ same => storeBytes_congr _ _ same
  | @installed osb table bytes aligned low osbIs read =>
      obtain ⟨here, isHeap⟩ := getCodeHeap_ok named
      obtain ⟨sameLength, each⟩ := readBytes_ok read
      have kept : ∀ addr, addr < dst ∨ dst + src.length ≤ addr →
          osb addr = process.osb addr := by
        intro addr outside
        rcases osbIs with rfl | rfl
        · rfl
        · exact storeBytes_outside _ outside
      have installed : ∀ addr, HeapPage process.modules (addr / pageSize) →
          dst ≤ addr → addr < dst + src.length →
            osb addr = process.verified.storeBytes dst bytes addr := by
        intro addr owned above below
        have byteIs := each (addr - dst) (by omega)
        rw [← storeBytes_inside process.verified above (by omega),
          Nat.add_sub_cancel' above] at byteIs
        have mapped : HeapsMapped process.modules process.verified process.osb
            ({ process with osb := osb } : JitProcess).space.pages := sound
        exact read_own mapped owned byteIs
      have owned : ∀ {page}, HeapPage (process.modules.set index
          { heap with
            codeDataBitmap := setCode heap.codeDataBitmap
              (dst - heap.baseAddr) src.length }) page →
          HeapPage process.modules page := heapPage_setBitmap here
      refine ⟨sound.ownPlace,
        fun page mapped ownedAfter => sound.heapPages page mapped
          (owned ownedAfter),
        fun addr code mapped found executable => ?_⟩
      change osb addr = process.verified.storeBytes dst bytes addr
      by_cases inside : dst ≤ addr ∧ addr < dst + src.length
      · exact installed addr (owned code.heapPage) inside.1 inside.2
      · -- a byte outside the range was code before, and is as it was
        have outside : addr < dst ∨ dst + src.length ≤ addr := by omega
        rw [kept addr outside, storeBytes_outside _ (sameLength ▸ outside)]
        refine sound.agrees addr ?_ mapped found executable
        rcases codeAt_setBitmap code with old | ⟨_, holds, isMarked⟩
        · exact old
        · have low' := holds.1
          have heapBase := heap.baseAligned
          rw [marked_setCode _ _ _ (by simp only [pageSize] at heapBase; omega)]
            at isMarked
          rcases isMarked with old | new
          · exact ⟨heap, List.mem_of_getElem? here, isHeap, holds, old⟩
          · omega

end Invariant

section Memory

/-- What a careful memory call asks for. -/
inductive HeapRequest (modules : List CodeModule) : KernelCall → Prop where
  | mapped
      {addr len : Nat} {prot flags : UInt32} {fd off : Int}
      (noExec : protExec prot = false)
      (apart : ∀ page,
        (KernelCall.mmap addr len prot flags fd off).Touches page →
          ¬ HeapPage modules page) :
      HeapRequest modules (.mmap addr len prot flags fd off)
  | guarded
      {addr len : Nat} {prot : UInt32}
      (notBoth : (protWrite prot && protExec prot) = false)
      (noCode : protExec prot → ∀ page,
        (KernelCall.mprotect addr len prot).Touches page →
          ∀ addr, addr / pageSize = page → ¬ CodeAt modules addr) :
      HeapRequest modules (.mprotect addr len prot)
  | unmapped {addr len : Nat} : HeapRequest modules (.munmap addr len)

variable {process : JitProcess} {request : KernelCall}

/-- A request that makes nothing executable is guarded. -/
theorem HeapRequest.plain
    {modules : List CodeModule} (addr len : Nat) {prot : UInt32}
    (noExec : protExec prot = false) :
    HeapRequest modules (mprotectRequest addr len prot) :=
  .guarded (by rw [noExec, Bool.and_false])
    fun executable => by rw [noExec] at executable; cases executable

/-- What a careful mapping asks for. -/
theorem heapRequest_of_rockMmap
    {start len : UInt64} {prot flags : UInt32} {fd off : Int}
    (careful : (JitAction.mmap start len prot flags fd off).Careful process)
    (issued : (rockMmap start len prot flags fd off
      process.space.sandbox).Issues request) :
    HeapRequest process.modules request := by
  rw [issues_rockMmap] at issued
  obtain ⟨aligned, below, lenBelow, issued⟩ := issued
  have startBelow : mapFixed flags → start.toNat ≤ fourGB :=
    fun fixed => not_lt.mp fun past => below ⟨past, fixed⟩
  have rounded : roundToPage len.toNat = (len.toNat + 4095) / 4096 * 4096 :=
    roundToPage_of_le (by omega)
  unfold JitAction.Careful at careful
  cases inHeap : fixedInHeap process.space.sandbox start.toNat len.toNat
    flags with
  | some heap =>
      simp only [inHeap] at issued careful
      obtain ⟨notBoth, _, rfl⟩ := issued
      have fixed := (fixedInHeap_some inHeap).1
      refine .guarded notBoth fun executable page touched addr onPage => ?_
      obtain ⟨first, last⟩ := liesOver_mprotect prot (startBelow fixed)
        lenBelow page touched
      refine careful executable addr ?_ ?_ <;>
        simp only [rounded, pageSize] at * <;> omega
  | none =>
      simp only [inHeap] at issued careful
      simp only [issues_mmapOutsideHeaps] at issued
      obtain ⟨noExec, page, chosen, _, rfl⟩ := issued
      refine .mapped noExec fun touched touches owned => ?_
      obtain ⟨heap, member, isHeap, onPage⟩ := owned
      have apart := careful page chosen heap member isHeap
      have addrAligned : page * pageSize % 2 ^ 64 % pageSize = 0 := by
        simp only [pageSize]
        omega
      obtain ⟨first, last⟩ := touches
      obtain ⟨low, high⟩ := onPage
      simp only [KernelCall.stop, KernelCall.addr, KernelCall.len] at first last
      refine apart ⟨?_, ?_⟩ <;> simp only [pageSize] at * <;> omega

/-- What a careful memory call asks for. -/
theorem heapRequest_of_call
    {action : JitAction} {call : MemoryCall}
    (careful : action.Careful process) (named : action.memoryCall = some call)
    (issued : (call.program process.space.sandbox).Issues request) :
    HeapRequest process.modules request := by
  cases action with
  | mmap start len prot flags fd off =>
      cases named
      exact heapRequest_of_rockMmap careful issued
  | mprotect addr len prot =>
      cases named
      rw [MemoryCall.program, issues_rockMprotect] at issued
      obtain ⟨_, _, noExec, _, rfl⟩ := issued
      exact .plain _ _ noExec
  | munmap start len =>
      cases named
      rw [MemoryCall.program, issues_rockMunmap] at issued
      obtain ⟨_, _, _, rfl⟩ := issued
      exact .unmapped
  | fill => cases named
  | store => cases named

/-- Memory calls change the pager's list only. -/
theorem modules_of_call
    {action : JitAction} {call : MemoryCall} {before after : Sandbox}
    {value : Int} (named : action.memoryCall = some call)
    (returned : (call.program before).Returns (value, after)) :
    after.modules = before.modules := by
  cases action with
  | mmap start len prot flags fd off =>
      cases named
      rcases returns_rockMmap returned with rfl | ⟨_, _, _, _, _, rfl⟩ <;> rfl
  | mprotect addr len prot =>
      cases named
      rw [returns_rockMprotect returned]
  | munmap start len =>
      cases named
      rcases returns_rockMunmap returned with rfl | ⟨_, _, _, _, rfl⟩ <;> rfl
  | fill => cases named
  | store => cases named

/-- Where a page of a step comes from. -/
inductive PageOrigin (request : KernelCall) (before : PageMap) (page : Nat) :
    Page → Prop where
  | kept {mapped : Page} (was : before page = some mapped) :
      PageOrigin request before page mapped
  | mapped
      {addr len : Nat} {prot flags : UInt32} {fd off : Int} {id : Nat}
      (requested : request = .mmap addr len prot flags fd off)
      (touched : request.Touches page) :
      PageOrigin request before page ⟨.other id, prot⟩
  | guarded
      {addr len : Nat} {prot : UInt32} {old : Page}
      (requested : request = .mprotect addr len prot)
      (touched : request.Touches page) (was : before page = some old) :
      PageOrigin request before page { old with prot := prot }

/-- Every page after a step is an old, a new or a protected one. -/
theorem pageOrigin_of_step
    {kernel : Kernel} {before after : PageMap} {answer : Int} {page : Nat}
    {mapped : Page} (step : kernel.Step request before answer after)
    (found : after page = some mapped) :
    PageOrigin request before page mapped := by
  rcases page_cases step page with same | ⟨touched, same | changed⟩
  · exact .kept (same ▸ found)
  · exact .kept (same ▸ found)
  · cases request with
    | mmap addr len prot flags fd off =>
        rcases changed with gone | ⟨id, isNew⟩
        · rw [gone] at found
          cases found
        · rw [isNew] at found
          cases found
          exact .mapped rfl touched
    | mprotect addr len prot =>
        obtain ⟨old, was, rfl⟩ := Option.map_eq_some_iff.mp (changed ▸ found)
        exact .guarded rfl touched was
    | munmap addr len =>
        rw [changed] at found
        cases found

/-- A request of careful calls keeps what is known of the heaps' pages. -/
theorem HeapRequest.keeps
    {modules : List CodeModule} {verified osb : ByteMem} {kernel : Kernel}
    {before after : PageMap} {answer : Int}
    (asked : HeapRequest modules request)
    (step : kernel.Step request before answer after)
    (pages : HeapsMapped modules verified osb before) :
    HeapsMapped modules verified osb after := by
  refine ⟨fun page mapped own found isOwn => ?_,
    fun page mapped owned found => ?_,
    fun addr code mapped found executable => ?_⟩
  · cases pageOrigin_of_step step found with
    | kept was => exact pages.ownPlace page mapped own was isOwn
    | mapped => cases isOwn
    | guarded _ _ was => exact pages.ownPlace page _ own was isOwn
  · cases pageOrigin_of_step step found with
    | kept was => exact pages.heapPages page mapped owned was
    | mapped requested touched =>
        subst requested
        cases asked with
        | mapped _ apart => exact absurd owned (apart page touched)
    | guarded requested touched was =>
        subst requested
        cases asked with
        | guarded notBoth _ =>
            exact ⟨(pages.heapPages page _ owned was).1, notBoth⟩
  · cases pageOrigin_of_step step found with
    | kept was => exact pages.agrees addr code mapped was executable
    | mapped requested _ =>
        subst requested
        cases asked with
        | mapped noExec _ => exact absurd executable (by simp [noExec])
    | guarded requested touched _ =>
        subst requested
        cases asked with
        | guarded _ noCode =>
            exact absurd code (noCode executable _ touched addr rfl)

end Memory

section Runs

variable {kernel : Kernel} {start process after : JitProcess}
  {action : JitAction}

/-- A store of the program changes no code that is executable. -/
theorem JitProcess.Sound.stored
    {addr : Nat} {byte : UInt8} {page : Page} (sound : process.Sound)
    (found : process.space.pages (addr / pageSize) = some page)
    (writable : protWrite page.prot = true) :
    (process.storeThrough page.frame addr byte).Sound := by
  cases behind : page.frame with
  | other id => exact sound
  | own place =>
      have here := sound.ownPlace _ _ _ found behind
      have sameAddr : place * pageSize + addr % pageSize = addr := by
        rw [here]
        exact Nat.div_add_mod' addr pageSize
      refine sound_osb sound fun query code mapped mappedAt executable same =>
        ?_
      rw [sameAddr]
      unfold storeByte
      split
      next hit =>
        -- the page of a code byte would be writable and executable
        rw [hit] at code mappedAt
        cases found.symm.trans mappedAt
        have notBoth := (sound.heapPages _ page code.heapPage found).2
        rw [writable, executable] at notBoth
        cases notBoth
      next => exact same

/-- Every careful step keeps the invariant. -/
theorem JitProcess.Sound.step
    (sound : process.Sound) (careful : action.Careful process)
    (step : JitStep kernel process action after) :
    after.Sound := by
  cases step with
  | fill returned =>
      obtain ⟨index, heap, named, filled⟩ := codeHeapFillIn_ok returned
      exact sound.filled named careful filled
  | memory other named runs =>
      have same := modules_of_call named runs.returns
      have kept := runs.invariant
        (motive := HeapsMapped process.modules process.verified process.osb)
        (fun issued step => (heapRequest_of_call careful named issued).keeps
          step) sound
      unfold JitProcess.Sound JitProcess.modules
      rw [same]
      exact kept
  | store mapped writable => exact sound.stored mapped writable

end Runs

section Reopening

open JitExample

/-- A heap of one page that the process may not access yet. -/
def oneHeap : JitProcess where
  space :=
    { sandbox :=
        { vm := []
          modules :=
            [{ allocCodeModule with
                baseAddr := 0x400000
                sz := 0x1000
                activated := true
                codeHeap := true
                verifier := some nopVerifier
                baseAligned := programBase_aligned
                sizeAligned := page_aligned }] }
      pages := fun page => if page = 0x400 then some ⟨.own 0x400, 0⟩ else none }
  osb := fun _ => 0
  other := fun _ _ => 0
  table := fun _ => 0
  verified := fun _ => 0

theorem fresh_oneHeap : oneHeap.Fresh where
  noCode := by
    rintro addr ⟨heap, member, _, _, isMarked⟩
    cases List.mem_singleton.mp member
    simp [marked, allocCodeModule] at isMarked
  ownPlace := by
    intro page mapped own found isOwn
    simp only [oneHeap] at found
    split at found
    next here =>
      cases found
      cases isOwn
      exact here.symm
    next => cases found
  heapPages := by
    intro page mapped _ found
    simp only [oneHeap] at found
    split at found
    next here =>
      cases found
      rw [here]
      exact ⟨rfl, by decide⟩
    next => cases found

/-- The process after a request of a memory call was granted. -/
def JitProcess.granted (process : JitProcess) (request : KernelCall) :
    JitProcess :=
  { process with
    space := { process.space with
      pages := grantedPages request process.space.pages } }

/-- The process after an instruction was installed at offset 8. -/
def JitProcess.withNop (process : JitProcess) : JitProcess :=
  JitProcess.setModule
    { process with
      osb := process.osb.storeBytes 0x400008 [0x90]
      table := process.table.storeBytes 0x400008 [UInt8.ofNat DCV]
      verified := process.verified.storeBytes 0x400008 [0x90] }
    0
    { allocCodeModule with
      baseAddr := 0x400000
      sz := 0x1000
      activated := true
      codeHeap := true
      verifier := some nopVerifier
      baseAligned := programBase_aligned
      sizeAligned := page_aligned
      codeDataBitmap := setCode (fun _ => 0) 8 1 }

/-- The heap, open for reading and another access. -/
def opened (prot : UInt32) : JitProcess :=
  oneHeap.granted (mprotectRequest 0x400000 0x1000 prot)

/-- The program overwrites the instruction on its writable page. -/
def overwritten : JitProcess :=
  (opened 3).withNop.storeThrough (.own 0x400) 0x400008 0xcc

/-- It makes one byte of the page, and so the whole page, executable. -/
def reopened : JitProcess :=
  overwritten.granted (mprotectRequest 0x400000 1 5)

/-- A fixed mapping at the base of the heap that is granted. -/
private theorem mapped_granted
    (process : JitProcess) {heap : CodeModule} (len : UInt64) (prot : UInt32)
    (short : len.toNat ≤ fourGB)
    (nonempty : 0 < (mprotectRequest 0x400000 len.toNat prot).len)
    (inHeap : fixedInHeap process.space.sandbox 0x400000 len.toNat 0x10 =
      some heap)
    (notBoth : (protWrite prot && protExec prot) = false)
    (data : whichArea heap.codeDataBitmap (0x400000 - heap.baseAddr) len.toNat =
      .data) :
    JitStep grantingKernel process (.mmap 0x400000 len prot 0x10 (-1) 0)
      (process.granted (mprotectRequest 0x400000 len.toNat prot)) := by
  have runs : ((MemoryCall.mmap 0x400000 len prot 0x10 (-1) 0).program
      process.space.sandbox).Runs grantingKernel process.space.pages
      (0x400000, process.space.sandbox)
      (grantedPages (mprotectRequest 0x400000 len.toNat prot)
        process.space.pages) := by
    have place : (0x400000 : UInt64).toNat = 0x400000 := by decide
    rw [MemoryCall.program, rockMmap, place, if_neg (by decide),
      if_neg (by decide), if_neg (not_lt.mpr short)]
    simp only [inHeap, notBoth, data]
    exact ⟨0, _, ⟨Nat.mul_mod_left _ _, nonempty, rfl, rfl⟩, rfl, rfl⟩
  exact .memory process.other rfl runs

end Reopening

end Mcfi
