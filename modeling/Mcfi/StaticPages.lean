import Mcfi.AddressSpace

namespace Mcfi

/-!
# The read-only pages of loaded modules

The text and the `.got.plt` of a loaded module must stay read-only inside the
sandbox, nothing but text and code heaps may be executable, and `.got.plt` must
stay the memory that the loader mapped there.  The overlap test of the memory
calls guards the first two; it lets a mapping without write access and an
unmapping replace `.got.plt`.
-/

/-- A page lies in a module's executable segment. -/
def CodeModule.TextPage (m : CodeModule) (page : Nat) : Prop :=
  m.baseAddr ≤ page * pageSize ∧ page * pageSize < m.baseAddr + m.sz

/-- A page lies in a module's `.got.plt`. -/
def CodeModule.GotPage (m : CodeModule) (page : Nat) : Prop :=
  m.gotplt ≤ page * pageSize ∧ page * pageSize < m.gotplt + m.gotpltsz

/-- Two ranges of addresses share a byte. -/
def Meets (start len other otherLen : Nat) : Prop :=
  start < other + otherLen ∧ other < start + len

/-- The pages that must not be writable are not. -/
def ReadOnly (modules : List CodeModule) (pages : PageMap) : Prop :=
  ∀ m ∈ modules, m.codeHeap = false → ∀ page, m.TextPage page ∨ m.GotPage page →
    ∀ mapped, pages page = some mapped → protWrite mapped.prot = false

/-- Only text and code heaps are executable. -/
def ExecOnlyText (modules : List CodeModule) (pages : PageMap) : Prop :=
  ∀ page mapped, pages page = some mapped → protExec mapped.prot →
    ∃ m ∈ modules, m.TextPage page

/-- Every page of `.got.plt` is what the loader mapped there. -/
def GotKept (modules : List CodeModule) (pages : PageMap) : Prop :=
  ∀ m ∈ modules, m.codeHeap = false → ∀ page, m.GotPage page →
    ∃ mapped, pages page = some mapped ∧ mapped.frame = .own page

/--
Where the loader and `create_code_heap` put modules: inside the sandbox, each
`.got.plt` on whole pages, and no code heap over the text or the `.got.plt` of a
loaded module.
-/
structure ModuleLayout (modules : List CodeModule) : Prop where
  gotAligned : ∀ m ∈ modules, m.codeHeap = false →
    m.gotplt % pageSize = 0 ∧ m.gotpltsz % pageSize = 0
  textInside : ∀ m ∈ modules, m.baseAddr + m.sz ≤ fourGB
  gotInside : ∀ m ∈ modules, m.codeHeap = false →
    m.gotplt + m.gotpltsz ≤ fourGB
  heapsApart : ∀ heap ∈ modules, heap.codeHeap →
    ∀ m ∈ modules, m.codeHeap = false →
      ∀ page, heap.TextPage page → ¬ m.TextPage page ∧ ¬ m.GotPage page

/--
What the loader leaves: the regions of the pager do not overlap and cover every
`.got.plt`, and the pages have their protection.
-/
structure AddressSpace.Loaded (space : AddressSpace) : Prop where
  layout : ModuleLayout space.sandbox.modules
  noOverlap : space.sandbox.vm.NoOverlap
  within : space.sandbox.vm.Within (fourGB / pageSize)
  covered : ∀ m ∈ space.sandbox.modules, m.codeHeap = false →
    ∀ page, m.GotPage page → space.sandbox.vm.Covers page
  readOnly : ReadOnly space.sandbox.modules space.pages
  execOnlyText : ExecOnlyText space.sandbox.modules space.pages
  gotKept : GotKept space.sandbox.modules space.pages

/-- A range meets the `.got.plt` of a loaded module. -/
def MeetsGot (modules : List CodeModule) (start len : Nat) : Prop :=
  ∃ m ∈ modules, m.codeHeap = false ∧ Meets start len m.gotplt m.gotpltsz

/--
A call leaves every `.got.plt` mapped as it is: no fixed mapping without write
access and no unmapping meets one, unless a check of the call refuses it.
-/
def MemoryCall.SparesGot (sandbox : Sandbox) : MemoryCall → Prop
  | mmap start len prot flags _ _ =>
      mapFixed flags → protWrite prot = false →
        MmapRefused sandbox start len prot ∨
          ¬ MeetsGot sandbox.modules start.toNat (roundToPage len.toNat)
  | mprotect _ _ _ => True
  | munmap start len =>
      start.toNat % pageSize ≠ 0 ∨ MunmapRefused start len ∨
        ¬ MeetsGot sandbox.modules start.toNat (roundToPage len.toNat)
  | mremap oldAddr oldLen newLen _ _ =>
      oldAddr.toNat % pageSize ≠ 0 ∨ MunmapRefused oldAddr oldLen ∨
        MremapRefused sandbox newLen ∨
        ¬ MeetsGot sandbox.modules oldAddr.toNat (roundToPage oldLen.toNat)

section Requests

/-- The pages of a request lie over the bytes it was made for. -/
def LiesOver (request : KernelCall) (addr len : Nat) : Prop :=
  ∀ page, request.Touches page →
    addr < (page + 1) * pageSize ∧ page * pageSize < addr + len

theorem liesOver_mprotect
    {addr len : Nat} (prot : UInt32) (addrBelow : addr ≤ fourGB)
    (lenBelow : len ≤ fourGB) : LiesOver (mprotectRequest addr len prot) addr len := by
  intro page ⟨low, high⟩
  obtain ⟨addrIs, stopIs⟩ := mprotectRequest_stop prot addrBelow lenBelow
  rw [addrIs] at low
  rw [stopIs] at high
  simp only [pageSize] at *
  omega

theorem liesOver_mmap
    {page len : Nat} {prot flags : UInt32} {fd off : Int}
    (lenBelow : len ≤ fourGB) :
    LiesOver (.mmap (page * pageSize) len prot flags fd off) (page * pageSize)
      len := by
  intro other ⟨low, high⟩
  simp only [KernelCall.stop, KernelCall.addr, KernelCall.len] at low high
  rw [roundToPage_of_le (by omega)] at high
  simp only [pageSize] at *
  omega

/-- The overlap test keeps writable ranges off the read-only pages. -/
theorem untouched_of_apart
    {modules : List CodeModule} {request : KernelCall} {addr len : Nat}
    {prot : UInt32} (layout : ModuleLayout modules)
    (spans : LiesOver request addr len) (below : addr + len < 2 ^ 64)
    (apart : insecureOverlapRdonly modules addr len prot = false)
    (writes : protWrite prot = true)
    {m : CodeModule} (member : m ∈ modules) (loaded : m.codeHeap = false)
    {page : Nat} (guarded : m.TextPage page ∨ m.GotPage page) :
    ¬ request.Touches page := by
  intro touched
  obtain ⟨low, high⟩ := spans page touched
  have textInside := layout.textInside m member
  have gotInside := layout.gotInside m member loaded
  obtain ⟨gotAligned, gotSized⟩ := layout.gotAligned m member loaded
  have textAligned := m.baseAligned
  have textSized := m.sizeAligned
  have none : (rangeOverlap addr len m.baseAddr m.sz ||
      rangeOverlap addr len m.gotplt m.gotpltsz) = false := by
    by_contra some
    rw [Bool.not_eq_false] at some
    have overlaps : insecureOverlapRdonly modules addr len prot = true := by
      simp only [insecureOverlapRdonly, writes, Bool.true_and, List.any_eq_true]
      exact ⟨m, member, by rw [loaded, some]; rfl⟩
    rw [overlaps] at apart
    cases apart
  simp only [rangeOverlap, Bool.or_eq_false_iff, beq_eq_false_iff_ne,
    Bool.and_eq_false_iff, decide_eq_false_iff_not, Nat.mod_eq_of_lt below]
    at none
  simp only [CodeModule.TextPage, CodeModule.GotPage, fourGB, pageSize] at *
  rw [Nat.mod_eq_of_lt (by omega : m.baseAddr + m.sz < 2 ^ 64),
    Nat.mod_eq_of_lt (by omega : m.gotplt + m.gotpltsz < 2 ^ 64)] at none
  omega

/-- What a memory call may ask for. -/
inductive Asked (sandbox : Sandbox) (call : MemoryCall) : KernelCall → Prop where
  | mapped
      {page len : Nat} {prot flags : UInt32} {fd off : Int}
      (lenBelow : len ≤ fourGB) (pageBelow : page * pageSize ≤ 2 * fourGB)
      (noExec : protExec prot = false)
      (apart : insecureOverlapRdonly sandbox.modules (page * pageSize) len
        prot = false)
      (placed : (∀ other, page ≤ other →
          other < page + roundToPage len / pageSize →
            ¬ sandbox.vm.Covers other) ∨
        (call.SparesGot sandbox → protWrite prot = false →
          ¬ MeetsGot sandbox.modules (page * pageSize) (roundToPage len))) :
      Asked sandbox call (.mmap (page * pageSize) len prot flags fd off)
  | guarded
      {addr len : Nat} {prot : UInt32}
      (addrBelow : addr ≤ fourGB) (lenBelow : len ≤ fourGB)
      (noExec : protExec prot = false)
      (apart : insecureOverlapRdonly sandbox.modules addr len prot = false) :
      Asked sandbox call (mprotectRequest addr len prot)
  | inHeap
      {start len : Nat} {prot : UInt32} {heap : CodeModule}
      (member : heap ∈ sandbox.modules) (isHeap : heap.codeHeap = true)
      (inside : ∀ page, (mprotectRequest start len prot).Touches page →
        heap.TextPage page) :
      Asked sandbox call (mprotectRequest start len prot)
  | unmapped
      {start len : Nat}
      (spared : call.SparesGot sandbox → start % pageSize = 0 →
        ¬ MeetsGot sandbox.modules start (roundToPage len)) :
      Asked sandbox call (.munmap start len)

/-- The pager's pages, up to twice the sandbox. -/
def pagerLimit : Nat := 2 * (fourGB / pageSize)

variable {sandbox : Sandbox} {request : KernelCall}

/-- What a mapping asks for. -/
theorem asked_of_rockMmap
    (layout : ModuleLayout sandbox.modules)
    (noOverlap : sandbox.vm.NoOverlap)
    (within : sandbox.vm.Within pagerLimit) {call : MemoryCall}
    {start len : UInt64} {prot flags : UInt32} {fd off : Int}
    (maps : call.Maps start len prot flags fd off)
    (issued : (rockMmap start len prot flags fd off sandbox).Issues request) :
    Asked sandbox call request := by
  rw [issues_rockMmap] at issued
  obtain ⟨aligned, below, lenBelow, issued⟩ := issued
  have startBelow : mapFixed flags → start.toNat ≤ fourGB :=
    fun fixed => not_lt.mp fun past => below ⟨past, fixed⟩
  cases inHeap : fixedInHeap sandbox start.toNat len.toNat flags with
  | some heap =>
      rw [inHeap] at issued
      obtain ⟨_, _, rfl⟩ := issued
      obtain ⟨fixed, member, isHeap, low, high⟩ := fixedInHeap_some inHeap
      refine .inHeap member isHeap fun page touched => ?_
      obtain ⟨first, last⟩ := liesOver_mprotect prot (startBelow fixed)
        lenBelow page touched
      have inside := layout.textInside heap member
      have baseAligned := heap.baseAligned
      have sizeAligned := heap.sizeAligned
      have startSmall := startBelow fixed
      simp only [CodeModule.TextPage, fourGB, pageSize] at *
      omega
  | none =>
      rw [inHeap] at issued
      simp only [issues_mmapOutsideHeaps] at issued
      obtain ⟨noExec, page, chosen, apart, rfl⟩ := issued
      obtain ⟨place, stops⟩ := mmapPage_stop noOverlap within (by decide)
        lenBelow startBelow aligned chosen
      rw [place] at apart ⊢
      split at stops
      next fixed =>
        refine .mapped lenBelow ?_ noExec apart (Or.inr ?_)
        · rw [stops]
          exact (startBelow fixed).trans (by decide)
        · intro spares readOnly
          cases maps with
          | mmap =>
              rcases spares fixed readOnly with refused | spared
              · rw [stops] at apart
                simp only [MmapRefused, aligned, noExec, apart, ne_eq,
                  not_true_eq_false, Bool.false_eq_true, or_false,
                  not_lt.mpr lenBelow, not_lt.mpr (startBelow fixed)] at refused
              · rw [stops]
                exact spared
          | mremap => exact absurd fixed (by decide)
      next =>
        refine .mapped lenBelow ?_ noExec apart (Or.inl stops.2.free)
        have limitIs : pagerLimit * pageSize = 2 * fourGB := by decide
        rw [← limitIs]
        exact (Nat.le_add_right _ _).trans stops.1

/-- What an unmapping asks for. -/
theorem asked_of_call
    (layout : ModuleLayout sandbox.modules)
    (noOverlap : sandbox.vm.NoOverlap)
    (within : sandbox.vm.Within pagerLimit) {call : MemoryCall}
    (issued : (call.program sandbox).Issues request) :
    Asked sandbox call request := by
  cases call with
  | mmap start len prot flags fd off =>
      exact asked_of_rockMmap layout noOverlap within (.mmap ..) issued
  | mprotect addr len prot =>
      rw [MemoryCall.program, issues_rockMprotect] at issued
      obtain ⟨addrBelow, lenBelow, noExec, apart, rfl⟩ := issued
      exact .guarded addrBelow lenBelow noExec apart
  | munmap start len =>
      rw [MemoryCall.program, issues_rockMunmap] at issued
      obtain ⟨startBelow, lenBelow, sumBelow, rfl⟩ := issued
      refine .unmapped fun spares aligned => ?_
      rcases spares with misaligned | refused | spared
      · exact absurd aligned misaligned
      · simp only [MunmapRefused] at refused
        omega
      · exact spared
  | mremap oldAddr oldLen newLen flags newAddr =>
      rw [MemoryCall.program, issues_rockMremap] at issued
      rcases issued with fresh | ⟨mapped, unmapped⟩
      · exact asked_of_rockMmap layout noOverlap within (.mremap ..) fresh
      · rw [freshMapping_iff noOverlap within (by decide)] at mapped
        rw [issues_rockMunmap] at unmapped
        obtain ⟨startBelow, lenBelow, sumBelow, rfl⟩ := unmapped
        refine .unmapped fun spares aligned => ?_
        rcases spares with misaligned | refused | refused | spared
        · exact absurd aligned misaligned
        · simp only [MunmapRefused] at refused
          omega
        · exact absurd refused mapped
        · exact spared

end Requests

section Steps

variable {modules : List CodeModule} {sandbox : Sandbox} {call : MemoryCall}
  {kernel : Kernel} {request : KernelCall} {before after : PageMap}
  {answer : Int}

/-- What a request may have made of one page. -/
theorem page_cases
    (step : kernel.Step request before answer after) (page : Nat) :
    after page = before page ∨
      (request.Touches page ∧ request.Effect (before page) (after page)) := by
  by_cases touched : request.Touches page
  · exact Or.inr ⟨touched, kernel.inside step page touched⟩
  · exact Or.inl (kernel.outside step page touched)

/-- The requests of memory calls keep the read-only pages read-only. -/
theorem Asked.readOnly
    (layout : ModuleLayout sandbox.modules)
    (asked : Asked sandbox call request)
    (step : kernel.Step request before answer after)
    (readOnly : ReadOnly sandbox.modules before) :
    ReadOnly sandbox.modules after := by
  intro m member loaded page guarded mapped found
  rcases page_cases step page with same | ⟨touched, effect⟩
  · rw [same] at found
    exact readOnly m member loaded page guarded mapped found
  · rcases effect with same | changed
    · rw [same] at found
      exact readOnly m member loaded page guarded mapped found
    · by_contra writes
      rw [Bool.not_eq_false] at writes
      cases asked with
      | mapped lenBelow pageBelow noExec apart placed =>
          rcases changed with gone | ⟨id, new⟩
          · rw [gone] at found
            cases found
          · rw [new] at found
            cases found
            refine untouched_of_apart layout (liesOver_mmap lenBelow) ?_ apart
              writes member loaded guarded touched
            simp only [fourGB] at *
            omega
      | guarded addrBelow lenBelow noExec apart =>
          obtain ⟨old, _, rfl⟩ := Option.map_eq_some_iff.mp (changed ▸ found)
          refine untouched_of_apart layout
            (liesOver_mprotect _ addrBelow lenBelow) ?_ apart writes member
            loaded guarded touched
          simp only [fourGB] at *
          omega
      | inHeap heapMember isHeap inside =>
          obtain ⟨notText, notGot⟩ := layout.heapsApart _ heapMember isHeap m
            member loaded page (inside page touched)
          exact guarded.elim notText notGot
      | unmapped spared =>
          rw [changed] at found
          cases found

/-- The requests of memory calls make nothing executable but code heaps. -/
theorem Asked.execOnlyText
    (asked : Asked sandbox call request)
    (step : kernel.Step request before answer after)
    (execOnly : ExecOnlyText sandbox.modules before) :
    ExecOnlyText sandbox.modules after := by
  intro page mapped found executable
  rcases page_cases step page with same | ⟨touched, effect⟩
  · rw [same] at found
    exact execOnly page mapped found executable
  · rcases effect with same | changed
    · rw [same] at found
      exact execOnly page mapped found executable
    · cases asked with
      | mapped lenBelow pageBelow noExec apart placed =>
          rcases changed with gone | ⟨id, new⟩
          · rw [gone] at found
            cases found
          · rw [new] at found
            cases found
            rw [noExec] at executable
            cases executable
      | guarded addrBelow lenBelow noExec apart =>
          obtain ⟨old, _, rfl⟩ := Option.map_eq_some_iff.mp (changed ▸ found)
          rw [noExec] at executable
          cases executable
      | inHeap heapMember isHeap inside =>
          exact ⟨_, heapMember, inside page touched⟩
      | unmapped spared =>
          rw [changed] at found
          cases found

/-- A page of `.got.plt` is met by every request that touches it. -/
theorem meetsGot_of_touches
    {start len page : Nat} (layout : ModuleLayout modules)
    (low : start < (page + 1) * pageSize) (high : page * pageSize < start + len)
    {m : CodeModule} (member : m ∈ modules) (loaded : m.codeHeap = false)
    (got : m.GotPage page) : MeetsGot modules start len := by
  refine ⟨m, member, loaded, ?_⟩
  obtain ⟨aligned, sized⟩ := layout.gotAligned m member loaded
  simp only [Meets, CodeModule.GotPage, pageSize] at *
  omega

/-- The requests of sparing calls keep every `.got.plt` what it was. -/
theorem Asked.gotKept
    (layout : ModuleLayout sandbox.modules)
    (asked : Asked sandbox call request) (spares : call.SparesGot sandbox)
    (covered : ∀ m ∈ sandbox.modules, m.codeHeap = false →
      ∀ page, m.GotPage page → sandbox.vm.Covers page)
    (step : kernel.Step request before answer after)
    (gotKept : GotKept sandbox.modules before) :
    GotKept sandbox.modules after := by
  intro m member loaded page got
  obtain ⟨mapped, found, own⟩ := gotKept m member loaded page got
  rcases page_cases step page with same | ⟨touched, effect⟩
  · exact ⟨mapped, same.trans found, own⟩
  · rcases effect with same | changed
    · exact ⟨mapped, same.trans found, own⟩
    · cases asked with
      | @mapped first len prot flags fd off lenBelow pageBelow noExec apart
          placed =>
          exfalso
          obtain ⟨low, high⟩ := liesOver_mmap lenBelow page touched
          have rounded : roundToPage len = (len + 4095) / 4096 * 4096 :=
            roundToPage_of_le (by omega)
          rcases placed with free | spared
          · refine free page ?_ ?_ (covered m member loaded page got)
            · simp only [pageSize] at low
              omega
            · rw [rounded]
              simp only [pageSize] at high ⊢
              omega
          · by_cases writes : protWrite prot = true
            · refine untouched_of_apart layout (liesOver_mmap lenBelow) ?_ apart
                writes member loaded (Or.inr got) touched
              simp only [fourGB] at lenBelow pageBelow
              omega
            · rw [Bool.not_eq_true] at writes
              refine spared spares writes (meetsGot_of_touches layout low ?_
                member loaded got)
              rw [rounded]
              simp only [pageSize] at high ⊢
              omega
      | guarded addrBelow lenBelow noExec apart =>
          exact ⟨_, changed.trans (congrArg _ found), own⟩
      | inHeap heapMember isHeap inside =>
          exact ⟨_, changed.trans (congrArg _ found), own⟩
      | @unmapped start len spared =>
          by_cases aligned : start % pageSize = 0
          · exact absurd (meetsGot_of_touches layout touched.1 touched.2 member
              loaded got) (spared spares aligned)
          · rw [kernel.misaligned step aligned]
            exact ⟨mapped, found, own⟩

end Steps

section Runs

variable {kernel : Kernel} {before after : Sandbox} {call : MemoryCall}
  {value : Int}

/-- The pager's regions do not overlap, and end at most where a call can name. -/
structure PagerKept (modules : List CodeModule) (sandbox : Sandbox) : Prop where
  modulesKept : sandbox.modules = modules
  noOverlap : sandbox.vm.NoOverlap
  within : sandbox.vm.Within pagerLimit

section Pager

variable {modules : List CodeModule} {start len : UInt64}

/-- A mapping keeps the pager's regions apart. -/
theorem PagerKept.mapped
    {prot flags : UInt32} {fd off : Int} (kept : PagerKept modules before)
    (returned : (rockMmap start len prot flags fd off before).Returns
      (value, after)) :
    PagerKept modules after := by
  have sound := sound_rockMmap (le_refl _) (by decide) kept.noOverlap
    kept.within returned
  refine ⟨?_, sound.1, sound.2⟩
  rcases returns_rockMmap returned with rfl | ⟨_, _, _, _, _, rfl⟩ <;>
    exact kept.modulesKept

/-- An unmapping keeps the pager's regions apart. -/
theorem PagerKept.unmapped
    (kept : PagerKept modules before)
    (returned : (rockMunmap start len before).Returns (value, after)) :
    PagerKept modules after := by
  have sound := sound_rockMunmap kept.noOverlap kept.within returned
  refine ⟨?_, sound.1, sound.2⟩
  rcases returns_rockMunmap returned with rfl | ⟨_, _, _, _, rfl⟩ <;>
    exact kept.modulesKept

/-- Every returned memory call keeps the pager's regions apart. -/
theorem PagerKept.step
    (kept : PagerKept modules before)
    (returned : (call.program before).Returns (value, after)) :
    PagerKept modules after :=
  MemoryCall.invariant returned (fun _ _ between => between.mapped)
    (fun _ between => between.unmapped) kept

/-- The pager covers every `.got.plt`. -/
def GotCovered (sandbox : Sandbox) : Prop :=
  ∀ m ∈ sandbox.modules, m.codeHeap = false → ∀ page, m.GotPage page →
    sandbox.vm.Covers page

/-- A mapping uncovers nothing. -/
theorem GotCovered.mapped
    {prot flags : UInt32} {fd off : Int} (kept : PagerKept modules before)
    (covered : GotCovered before)
    (returned : (rockMmap start len prot flags fd off before).Returns
      (value, after)) :
    GotCovered after := by
  rcases returns_rockMmap returned with rfl | ⟨page, vm, _, _, added, rfl⟩
  · exact covered
  · intro m member loaded other got
    rw [covers_vmmapAddWithOverwrite kept.noOverlap added]
    exact Or.inl (covered m member loaded other got)

/-- Unmapping a range that meets no `.got.plt` uncovers none. -/
theorem GotCovered.unmapped
    (layout : ModuleLayout modules) (kept : PagerKept modules before)
    (covered : GotCovered before)
    (spared : (rockMunmap start len before).Issues
      (.munmap start.toNat len.toNat) → start.toNat % pageSize = 0 →
        ¬ MeetsGot modules start.toNat (roundToPage len.toNat))
    (returned : (rockMunmap start len before).Returns (value, after)) :
    GotCovered after := by
  rcases returns_rockMunmap returned with rfl | ⟨vm, issued, aligned, removed,
    rfl⟩
  · exact covered
  · intro m member loaded other got
    rw [covers_vmmapRemove kept.noOverlap removed]
    refine ⟨covered m member loaded other got, fun inside => ?_⟩
    have notMet := spared issued aligned
    rw [issues_rockMunmap] at issued
    obtain ⟨startBelow, lenBelow, _⟩ := issued
    refine notMet (meetsGot_of_touches layout ?_ ?_ (kept.modulesKept ▸ member)
      loaded got)
    all_goals
      have startIs : roundToPage start.toNat =
          (start.toNat + 4095) / 4096 * 4096 := roundToPage_of_le (by omega)
      have lenIs : roundToPage len.toNat = (len.toNat + 4095) / 4096 * 4096 :=
        roundToPage_of_le (by omega)
      simp only [startIs, lenIs, pageSize] at inside aligned ⊢
      omega

/-- Calls that spare every `.got.plt` leave them covered. -/
theorem GotCovered.step
    (layout : ModuleLayout modules) (kept : PagerKept modules before)
    (covered : GotCovered before) (spares : call.SparesGot before)
    (returned : (call.program before).Returns (value, after)) :
    GotCovered after := by
  have sameModules := kept.modulesKept
  have both : PagerKept modules after ∧ GotCovered after := by
    refine MemoryCall.invariant (motive := fun sandbox =>
      PagerKept modules sandbox ∧ GotCovered sandbox) returned ?_ ?_
      ⟨kept, covered⟩
    · exact fun _ _ between mapped =>
        ⟨between.1.mapped mapped, between.2.mapped between.1 mapped⟩
    · intro source target start len result issues between unmapped
      refine ⟨between.1.unmapped unmapped,
        between.2.unmapped layout between.1 (fun issued aligned => ?_) unmapped⟩
      have asked := asked_of_call (sameModules ▸ layout) kept.noOverlap
        kept.within (issues _ issued)
      cases asked with
      | unmapped spared =>
          rw [← sameModules]
          exact spared spares aligned
  exact both.2

end Pager

/-- What every run keeps: the pager, the read-only pages and what is executable. -/
structure Guarded (modules : List CodeModule) (space : AddressSpace) : Prop where
  pager : PagerKept modules space.sandbox
  readOnly : ReadOnly modules space.pages
  execOnlyText : ExecOnlyText modules space.pages

/-- No memory call makes a read-only page writable or a new page executable. -/
theorem Guarded.step
    {modules : List CodeModule} {space : AddressSpace} {pages : PageMap}
    (layout : ModuleLayout modules) (guarded : Guarded modules space)
    (runs : (call.program space.sandbox).Runs kernel space.pages
      (value, after) pages) :
    Guarded modules ⟨after, pages⟩ := by
  obtain ⟨pager, readOnly, execOnlyText⟩ := guarded
  have same := pager.modulesKept
  have asked : ∀ {request}, (call.program space.sandbox).Issues request →
      Asked space.sandbox call request := fun issued =>
    asked_of_call (same ▸ layout) pager.noOverlap pager.within issued
  refine ⟨pager.step runs.returns, ?_, ?_⟩
  · refine runs.invariant (motive := ReadOnly modules) ?_ readOnly
    intro request current answer next issued step
    rw [← same]
    exact (asked issued).readOnly (same ▸ layout) step
  · refine runs.invariant (motive := ExecOnlyText modules) ?_ execOnlyText
    intro request current answer next issued step
    rw [← same]
    exact (asked issued).execOnlyText step

variable {space final : AddressSpace}

/--
However memory calls follow each other, the text and the `.got.plt` of loaded
modules stay read-only, and nothing but text and code heaps is executable.
-/
theorem guarded_run
    {Allowed : Sandbox → MemoryCall → Prop} (loaded : space.Loaded)
    (run : MemoryRun kernel Allowed space final) :
    Guarded space.sandbox.modules final := by
  induction run with
  | start =>
      refine ⟨⟨rfl, loaded.noOverlap, ?_⟩, loaded.readOnly, loaded.execOnlyText⟩
      exact fun entry member =>
        (loaded.within entry member).trans (by decide)
  | call _ _ runs inductionHypothesis =>
      exact inductionHypothesis.step loaded.layout runs

/-- As long as the calls spare every `.got.plt`, it stays what was mapped. -/
theorem gotKept_run
    (loaded : space.Loaded)
    (run : MemoryRun kernel (fun sandbox call => call.SparesGot sandbox) space
      final) :
    GotCovered final.sandbox ∧ GotKept space.sandbox.modules final.pages := by
  have layout := loaded.layout
  induction run with
  | start => exact ⟨loaded.covered, loaded.gotKept⟩
  | @call before call value sandbox pages earlier spares runs
      inductionHypothesis =>
      obtain ⟨covered, gotKept⟩ := inductionHypothesis
      have pager := (guarded_run loaded earlier).pager
      have same := pager.modulesKept
      refine ⟨covered.step layout pager spares runs.returns, ?_⟩
      refine runs.invariant (motive := GotKept space.sandbox.modules) ?_ gotKept
      intro request current answer next issued step
      rw [← same]
      exact (asked_of_call (same ▸ layout) pager.noOverlap pager.within
        issued).gotKept (same ▸ layout) spares covered step

end Runs

section Replacement

/-- A program of one page of text and one page of `.got.plt`. -/
def tinyProgram : AddressSpace where
  sandbox :=
    { vm := [⟨0, 0x400⟩, ⟨0x400, 1⟩, ⟨0x402, 1⟩, ⟨0xFF800, 0x800⟩]
      modules :=
        [{ allocCodeModule with
            baseAddr := 0x400000
            sz := 0x1000
            gotplt := 0x402000
            gotpltsz := 0x1000
            instrumented := true
            baseAligned := programBase_aligned
            sizeAligned := page_aligned }] }
  pages := fun page =>
    if page = 0x400 then some ⟨.own 0x400, 4⟩
    else if page = 0x402 then some ⟨.own 0x402, 1⟩
    else none

theorem loaded_tinyProgram : tinyProgram.Loaded := by
  have text : ∀ m ∈ tinyProgram.sandbox.modules, ∀ page, m.TextPage page →
      page = 0x400 := by
    simp only [tinyProgram, List.mem_singleton, forall_eq, CodeModule.TextPage,
      pageSize]
    omega
  have got : ∀ m ∈ tinyProgram.sandbox.modules, ∀ page, m.GotPage page →
      page = 0x402 := by
    simp only [tinyProgram, List.mem_singleton, forall_eq, CodeModule.GotPage,
      pageSize]
    omega
  refine ⟨⟨?_, ?_, ?_, ?_⟩, ⟨?_, ?_⟩, ?_, ?_, ?_, ?_, ?_⟩
  · simp [tinyProgram, pageSize]
  · simp [tinyProgram, fourGB]
  · simp [tinyProgram, fourGB]
  · simp [tinyProgram, allocCodeModule]
  · decide
  · simp [tinyProgram, Spans.Apart, VmmapEntry.endPage]
  · simp [tinyProgram, Vmmap.Within, VmmapEntry.endPage, fourGB, pageSize]
  · intro m member _ page isGot
    rw [got m member page isGot]
    exact ⟨⟨0x402, 1⟩, by simp [tinyProgram], by decide, by decide⟩
  · intro m member _ page guarded mapped found
    rcases guarded with isText | isGot
    · rw [text m member page isText] at found
      cases found
      decide
    · rw [got m member page isGot] at found
      cases found
      decide
  · intro page mapped found executable
    refine ⟨_, List.mem_singleton.mpr rfl, ?_⟩
    simp only [tinyProgram] at found
    split at found
    next here =>
      rw [here]
      exact ⟨by decide, by decide⟩
    next =>
      split at found
      next =>
        cases found
        exact absurd executable (by decide)
      next => cases found
  · intro m member _ page isGot
    rw [got m member page isGot]
    exact ⟨_, rfl, rfl⟩

/-- A read-only mapping of a file over `.got.plt`. -/
def replacingMmap : MemoryCall :=
  .mmap 0x402000 0x1000 1 0x12 3 0

/-- No check refuses the mapping: the overlap test looks at writable ranges. -/
theorem replacingMmap_program :
    replacingMmap.program tinyProgram.sandbox =
      mmap 0x402000 0x1000 1 0x12 3 0 fun result =>
        if result = ((0x402 * pageSize % 2 ^ 64 : Nat) : Int) then do
          let vm ← Syscalls.ofRt (vmmapAddWithOverwrite tinyProgram.sandbox.vm
            0x402 (roundToPage (0x1000 : UInt64).toNat / pageSize))
          return (result, { tinyProgram.sandbox with vm := vm })
        else
          return (result, tinyProgram.sandbox) := by
  have notHeap : fixedInHeap tinyProgram.sandbox (0x402000 : UInt64).toNat
      (0x1000 : UInt64).toNat 0x12 = none := by decide
  have page : mmapPage tinyProgram.sandbox.vm (0x402000 : UInt64).toNat
      (0x1000 : UInt64).toNat 0x12 = some 0x402 := by decide
  rw [replacingMmap, MemoryCall.program, rockMmap, if_neg (by decide),
    if_neg (by decide), if_neg (by decide)]
  simp only [notHeap, mmapOutsideHeaps, page]
  rw [if_neg (by decide), if_neg (by decide)]
  rfl

end Replacement

end Mcfi
