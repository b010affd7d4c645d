import Mcfi.MemoryCalls

namespace Mcfi

/-!
# Containment of the memory calls

The pages that a memory call asks the kernel to change should lie in the four
gigabytes of the sandbox.  The pager's answers do, as long as its regions do not
overlap; the ranges that the program names itself are compared with the limit by
their ends, and not all of these comparisons are complete.
-/

namespace KernelCall

/-- The first address of a kernel call. -/
def addr : KernelCall → Nat
  | mmap addr _ _ _ _ _ => addr
  | mprotect addr _ _ => addr
  | munmap addr _ => addr

/-- The length of a kernel call. -/
def len : KernelCall → Nat
  | mmap _ len _ _ _ _ => len
  | mprotect _ len _ => len
  | munmap _ len => len

/-- The end of the pages that a kernel call affects. -/
def stop (request : KernelCall) : Nat :=
  request.addr + roundToPage request.len

/--
The documented answers: the mapped address of a fixed mapping, or zero; the
kernel refuses empty mappings and addresses inside a page.
-/
def Answers (request : KernelCall) (answer : Int) : Prop :=
  answer < 0 ∨
    match request with
    | mmap addr len _ _ _ _ => answer = addr ∧ 0 < len ∧ addr % pageSize = 0
    | mprotect _ _ _ => answer = 0
    | munmap addr len => answer = 0 ∧ 0 < len ∧ addr % pageSize = 0

end KernelCall

namespace Syscalls

variable {α β : Type}

/-- Some answers of the kernel lead the program to a kernel call. -/
def Issues : Syscalls α → KernelCall → Prop
  | done _, _ => False
  | stop _, _ => False
  | issue own resume, request =>
      request = own ∨ ∃ answer, own.Answers answer ∧
        (resume answer).Issues request

/-- Some answers of the kernel lead the program to a result. -/
def Returns : Syscalls α → α → Prop
  | done value, result => value = result
  | stop _, _ => False
  | issue own resume, result =>
      ∃ answer, own.Answers answer ∧ (resume answer).Returns result

@[simp] theorem issues_ofRt
    (part : Rt α) (next : α → Syscalls β) (request : KernelCall) :
    (ofRt part >>= next).Issues request ↔
      ∃ value, part = .ok value ∧ (next value).Issues request := by
  cases part with
  | error fault => simp [ofRt, Bind.bind, bind, Issues]
  | ok value => simp [ofRt, Bind.bind, bind]

@[simp] theorem returns_ofRt
    (part : Rt α) (next : α → Syscalls β) (result : β) :
    (ofRt part >>= next).Returns result ↔
      ∃ value, part = .ok value ∧ (next value).Returns result := by
  cases part with
  | error fault => simp [ofRt, Bind.bind, bind, Returns]
  | ok value => simp [ofRt, Bind.bind, bind]

/-- What a sequence of two programs asks for. -/
theorem issues_bind
    (program : Syscalls α) (next : α → Syscalls β) (request : KernelCall) :
    (program >>= next).Issues request ↔
      program.Issues request ∨
        ∃ value, program.Returns value ∧ (next value).Issues request := by
  induction program with
  | done value => simp [Bind.bind, bind, Issues, Returns]
  | stop fault => simp [Bind.bind, bind, Issues, Returns]
  | issue own resume inductionHypothesis =>
      simp only [Bind.bind, bind, Issues, Returns] at inductionHypothesis ⊢
      simp only [inductionHypothesis]
      constructor
      · rintro (rfl | ⟨answer, documented, first | ⟨value, returned, later⟩⟩)
        · exact Or.inl (Or.inl rfl)
        · exact Or.inl (Or.inr ⟨answer, documented, first⟩)
        · exact Or.inr ⟨value, ⟨answer, documented, returned⟩, later⟩
      · rintro ((rfl | ⟨answer, documented, first⟩) |
          ⟨value, ⟨answer, documented, returned⟩, later⟩)
        · exact Or.inl rfl
        · exact Or.inr ⟨answer, documented, Or.inl first⟩
        · exact Or.inr ⟨answer, documented, Or.inr ⟨value, returned, later⟩⟩

/-- What a sequence of two programs returns. -/
theorem returns_bind
    (program : Syscalls α) (next : α → Syscalls β) (result : β) :
    (program >>= next).Returns result ↔
      ∃ value, program.Returns value ∧ (next value).Returns result := by
  induction program with
  | done value => simp [Bind.bind, bind, Returns]
  | stop fault => simp [Bind.bind, bind, Returns]
  | issue own resume inductionHypothesis =>
      simp only [Bind.bind, bind, Returns] at inductionHypothesis ⊢
      simp only [inductionHypothesis]
      constructor
      · rintro ⟨answer, documented, value, returned, later⟩
        exact ⟨value, ⟨answer, documented, returned⟩, later⟩
      · rintro ⟨value, ⟨answer, documented, returned⟩, later⟩
        exact ⟨answer, documented, value, returned, later⟩

@[simp] theorem issues_pure (value : α) (request : KernelCall) :
    (pure value : Syscalls α).Issues request ↔ False :=
  Iff.rfl

@[simp] theorem returns_pure (value result : α) :
    (pure value : Syscalls α).Returns result ↔ value = result :=
  Iff.rfl

end Syscalls

section Rounding

theorem roundToPage_of_le {value : Nat} (small : value ≤ 2 * fourGB) :
    roundToPage value = (value + 4095) / 4096 * 4096 := by
  have fits : value + (pageSize - 1) < 2 ^ 64 := by
    simp only [fourGB, pageSize] at *
    omega
  rw [roundToPage, Nat.mod_eq_of_lt fits]
  rfl

/-- Rounding up an end in whole pages does not pass a page limit. -/
theorem roundToPage_le_iff
    {start value limit : Nat} (small : value ≤ 2 * fourGB)
    (startAligned : start % pageSize = 0) (limitAligned : limit % pageSize = 0) :
    start + roundToPage value ≤ limit ↔ start + value ≤ limit := by
  rw [roundToPage_of_le small]
  simp only [pageSize] at *
  omega

end Rounding

section Issued

variable {sandbox : Sandbox} {request : KernelCall}

/-- The kernel call of `mprotect`. -/
def mprotectRequest (addr len : Nat) (prot : UInt32) : KernelCall :=
  let start := addr / pageSize * pageSize
  .mprotect start (sub64 (roundToPage ((addr + len) % 2 ^ 64)) start) prot

/-- The rounded range of `mprotect` ends at the end of the last page. -/
theorem mprotectRequest_stop
    {addr len : Nat} (prot : UInt32) (addrBelow : addr ≤ fourGB)
    (lenBelow : len ≤ fourGB) :
    (mprotectRequest addr len prot).addr = addr / 4096 * 4096 ∧
      (mprotectRequest addr len prot).stop =
        (addr + len + 4095) / 4096 * 4096 := by
  have sum : (addr + len) % 2 ^ 64 = addr + len :=
    Nat.mod_eq_of_lt (by simp only [fourGB] at *; omega)
  have rounded : roundToPage (addr + len) = (addr + len + 4095) / 4096 * 4096 :=
    roundToPage_of_le (by omega)
  refine ⟨rfl, ?_⟩
  simp only [mprotectRequest, KernelCall.stop, KernelCall.addr, KernelCall.len,
    sum, rounded, pageSize]
  rw [sub64_of_le (by simp only [fourGB] at *; omega) (by omega),
    roundToPage_of_le (by simp only [fourGB] at *; omega)]
  omega

/-- What `rock_mprotect` asks for. -/
theorem issues_rockMprotect (addr len : UInt64) (prot : UInt32) :
    (rockMprotect addr len prot sandbox).Issues request ↔
      addr.toNat ≤ fourGB ∧ len.toNat ≤ fourGB ∧ protExec prot = false ∧
        insecureOverlapRdonly sandbox.modules addr.toNat len.toNat prot =
          false ∧
        request = mprotectRequest addr.toNat len.toNat prot := by
  unfold rockMprotect
  simp only
  split
  next refused =>
    simp only [Syscalls.Issues, false_iff, not_and]
    intro addrBelow lenBelow noExec
    simp [noExec] at refused
    omega
  next accepted =>
    simp only [not_or, Bool.not_eq_true, not_lt] at accepted
    split
    next overlaps => simp [Syscalls.Issues, overlaps]
    next apart =>
      simp only [mprotect, Syscalls.Issues, mprotectRequest, exists_false,
        and_false, or_false, accepted, apart, true_and]

/-- What `rock_munmap` asks for. -/
theorem issues_rockMunmap (start len : UInt64) :
    (rockMunmap start len sandbox).Issues request ↔
      start.toNat ≤ fourGB ∧ len.toNat ≤ fourGB ∧
        start.toNat + len.toNat ≤ fourGB ∧
        request = .munmap start.toNat len.toNat := by
  unfold rockMunmap
  simp only
  split
  next refused =>
    simp only [Syscalls.Issues, false_iff, not_and]
    intro startBelow lenBelow
    simp only [fourGB] at *
    omega
  next accepted =>
    have within : start.toNat + len.toNat ≤ fourGB := by
      simp only [fourGB] at *
      omega
    simp only [munmap, Syscalls.Issues]
    constructor
    · rintro (rfl | ⟨answer, _, later⟩)
      · exact ⟨by omega, by omega, within, rfl⟩
      · split at later <;> split at later <;> simp at later
    · rintro ⟨_, _, _, rfl⟩
      exact Or.inl rfl

/-- What `rock_mmap` asks for outside the code heaps. -/
theorem issues_mmapOutsideHeaps
    (start len : Nat) (prot flags : UInt32) (fd off : Int) :
    (mmapOutsideHeaps start len prot flags fd off sandbox).Issues request ↔
      protExec prot = false ∧
        ∃ page, mmapPage sandbox.vm start len flags = some page ∧
          insecureOverlapRdonly sandbox.modules (page * pageSize % 2 ^ 64) len
            prot = false ∧
          request = .mmap (page * pageSize % 2 ^ 64) len prot (flags ||| 0x10)
            fd off := by
  unfold mmapOutsideHeaps
  split
  next exec => simp [Syscalls.Issues, exec]
  next noExec =>
    rw [Bool.not_eq_true] at noExec
    split
    next none => simp [Syscalls.Issues, none]
    next page chosen =>
      simp only
      split
      next overlaps =>
        simp only [Syscalls.Issues, chosen, Option.some.injEq,
          exists_eq_left', overlaps, Bool.true_eq_false, false_and, and_false]
      next apart =>
        rw [Bool.not_eq_true] at apart
        simp only [mmap, Syscalls.Issues, chosen, Option.some.injEq,
          exists_eq_left', noExec, apart, true_and]
        constructor
        · rintro (rfl | ⟨answer, _, later⟩)
          · rfl
          · split at later <;> split at later <;> simp at later
        · exact Or.inl

/-- What `rock_mmap` asks for. -/
theorem issues_rockMmap
    (start len : UInt64) (prot flags : UInt32) (fd off : Int) :
    (rockMmap start len prot flags fd off sandbox).Issues request ↔
      start.toNat % pageSize = 0 ∧
        ¬ (fourGB < start.toNat ∧ mapFixed flags) ∧ len.toNat ≤ fourGB ∧
        match fixedInHeap sandbox start.toNat len.toNat flags with
        | some heap =>
            (protWrite prot && protExec prot) = false ∧
              whichArea heap.codeDataBitmap (start.toNat - heap.baseAddr)
                len.toNat = .data ∧
              request = mprotectRequest start.toNat len.toNat prot
        | none =>
            (mmapOutsideHeaps start.toNat len.toNat prot flags fd off
              sandbox).Issues request := by
  unfold rockMmap
  simp only
  split
  next misaligned => simp [Syscalls.Issues, misaligned]
  next aligned =>
    rw [not_not] at aligned
    split
    next outside => simp [Syscalls.Issues, outside]
    next inside =>
      split
      next tooLong =>
        simp only [Syscalls.Issues, false_iff, not_and, not_le.mpr tooLong,
          false_implies, implies_true]
      next fits =>
        rw [not_lt] at fits
        simp only [aligned, inside, fits, true_and, not_false_eq_true]
        cases fixedInHeap sandbox start.toNat len.toNat flags with
        | none => rfl
        | some heap =>
            simp only
            split
            next writable => simp [Syscalls.Issues, writable]
            next =>
              split
              next notData => simp [Syscalls.Issues, notData]
              next data =>
                simp_all [mprotect, Syscalls.Issues, mprotectRequest]

end Issued

section Invariant

/-- The pager's regions are disjoint, and they and the code heaps lie inside. -/
structure Sandbox.WellFormed (sandbox : Sandbox) : Prop where
  noOverlap : sandbox.vm.NoOverlap
  within : sandbox.vm.Within (fourGB / pageSize)
  heaps : ∀ heap ∈ sandbox.modules, heap.codeHeap →
    heap.baseAddr + heap.sz ≤ fourGB

/-- What is known of the heap that a fixed mapping lies in. -/
theorem fixedInHeap_some
    {sandbox : Sandbox} {start len : Nat} {flags : UInt32} {heap : CodeModule}
    (found : fixedInHeap sandbox start len flags = some heap) :
    mapFixed flags ∧ heap ∈ sandbox.modules ∧ heap.codeHeap ∧
      heap.baseAddr ≤ start ∧
      (start + len) % 2 ^ 64 ≤ (heap.baseAddr + heap.sz) % 2 ^ 64 := by
  unfold fixedInHeap at found
  split at found
  next fixed =>
    have member := List.mem_of_find?_eq_some found
    have holds := List.find?_some found
    simp only [Bool.and_eq_true, decide_eq_true_eq] at holds
    exact ⟨fixed.2, member, holds.1.1, holds.1.2, holds.2⟩
  next => cases found

/-- The pages that the pager chooses, and those of a fixed mapping. -/
theorem mmapPage_some
    {vm : Vmmap} {start len page limit : Nat} {flags : UInt32}
    (noOverlap : vm.NoOverlap) (within : vm.Within limit)
    (small : limit < 2 ^ 64)
    (chosen : mmapPage vm start len flags = some page) :
    if mapFixed flags then page = start / pageSize
    else page ≠ 0 ∧ Gap vm limit page (roundToPage len / pageSize) := by
  unfold mmapPage at chosen
  simp only at chosen
  split at chosen
  next notFixed =>
    rw [Bool.not_eq_true'] at notFixed
    rw [if_neg (by simp [notFixed])]
    by_cases anywhere : fourGB < start ∨ start = 0
    · rw [if_pos anywhere] at chosen
      split at chosen
      next => cases chosen
      next nonzero =>
        rw [Option.some.injEq] at chosen
        subst chosen
        exact ⟨nonzero, vmmapFindSpace_gap noOverlap within small nonzero⟩
    · rw [if_neg anywhere] at chosen
      split at chosen
      next => cases chosen
      next nonzero =>
        rw [Option.some.injEq] at chosen
        subst chosen
        exact ⟨nonzero,
          vmmapFindMapSpaceAboveHint_gap noOverlap within small nonzero⟩
  next fixed =>
    rw [Bool.not_eq_true', Bool.not_eq_false] at fixed
    rw [if_pos fixed]
    split at chosen
    next => cases chosen
    next =>
      rw [Option.some.injEq] at chosen
      exact chosen.symm

section Answered

variable {α : Type} {result : α} {next : Int → Syscalls α} {addr len : Nat}

/-- The wrapped `mmap` answers with its address or with an error. -/
theorem returns_mmap {prot flags : UInt32} {fd off : Int} :
    (mmap addr len prot flags fd off next).Returns result ↔
      (next (-1)).Returns result ∨
        (0 < len ∧ addr % pageSize = 0 ∧ (next addr).Returns result) := by
  have positive : ¬ (addr : Int) < 0 := by omega
  simp only [mmap, Syscalls.Returns]
  constructor
  · rintro ⟨answer, refused | ⟨rfl, nonempty, aligned⟩, returned⟩
    · rw [if_pos refused] at returned
      exact Or.inl returned
    · rw [if_neg positive] at returned
      exact Or.inr ⟨nonempty, aligned, returned⟩
  · rintro (returned | ⟨nonempty, aligned, returned⟩)
    · exact ⟨-1, Or.inl (by decide), by rwa [if_pos (by decide)]⟩
    · exact ⟨addr, Or.inr ⟨rfl, nonempty, aligned⟩, by rwa [if_neg positive]⟩

/-- The wrapped `munmap` answers with zero or with an error. -/
theorem returns_munmap :
    (munmap addr len next).Returns result ↔
      (next (-1)).Returns result ∨
        (0 < len ∧ addr % pageSize = 0 ∧ (next 0).Returns result) := by
  simp only [munmap, Syscalls.Returns]
  constructor
  · rintro ⟨answer, refused | ⟨rfl, nonempty, aligned⟩, returned⟩
    · rw [if_pos refused] at returned
      exact Or.inl returned
    · exact Or.inr ⟨nonempty, aligned, returned⟩
  · rintro (returned | ⟨nonempty, aligned, returned⟩)
    · exact ⟨-1, Or.inl (by decide), by rwa [if_pos (by decide)]⟩
    · exact ⟨0, Or.inr ⟨rfl, nonempty, aligned⟩, returned⟩

end Answered

variable {sandbox after : Sandbox} {value : Int}

/-- What a returned `rock_mmap` has answered, and done to the pager's list. -/
theorem rockMmap_outcome
    {start len : UInt64} {prot flags : UInt32} {fd off : Int}
    (returned : (rockMmap start len prot flags fd off sandbox).Returns
      (value, after)) :
    (after = sandbox ∧ (value < 0 ∨
      ∃ heap, fixedInHeap sandbox start.toNat len.toNat flags = some heap)) ∨
      ∃ page vm, value = (page * pageSize % 2 ^ 64 : Nat) ∧ 0 < len.toNat ∧
        mmapPage sandbox.vm start.toNat len.toNat flags = some page ∧
        (rockMmap start len prot flags fd off sandbox).Issues
          (.mmap (page * pageSize % 2 ^ 64) len.toNat prot (flags ||| 0x10) fd
            off) ∧
        vmmapAddWithOverwrite sandbox.vm page
          (roundToPage len.toNat / pageSize) = .ok vm ∧
        after = { sandbox with vm := vm } := by
  unfold rockMmap at returned
  simp only at returned
  split at returned
  next => cases returned; exact Or.inl ⟨rfl, Or.inl (by decide)⟩
  next aligned =>
    split at returned
    next => cases returned; exact Or.inl ⟨rfl, Or.inl (by decide)⟩
    next inside =>
      split at returned
      next => cases returned; exact Or.inl ⟨rfl, Or.inl (by decide)⟩
      next fits =>
        split at returned
        next heap found =>
          split at returned
          next => cases returned
          next =>
            split at returned
            next => cases returned
            next =>
              obtain ⟨answer, _, same⟩ := returned
              cases same
              exact Or.inl ⟨rfl, Or.inr ⟨heap, found⟩⟩
        next notInHeap =>
          unfold mmapOutsideHeaps at returned
          split at returned
          next => cases returned
          next noExec =>
            split at returned
            next => cases returned; exact Or.inl ⟨rfl, Or.inl (by decide)⟩
            next page chosen =>
              simp only at returned
              split at returned
              next => cases returned
              next apart =>
                rw [returns_mmap] at returned
                rcases returned with failed | ⟨nonempty, _, mapped⟩
                · split at failed
                  next absurdly => omega
                  next =>
                    cases failed
                    exact Or.inl ⟨rfl, Or.inl (by decide)⟩
                · rw [if_pos rfl, Syscalls.returns_ofRt] at mapped
                  obtain ⟨vm, added, same⟩ := mapped
                  cases same
                  refine Or.inr ⟨page, vm, rfl, nonempty, chosen, ?_, added,
                    rfl⟩
                  rw [issues_rockMmap, notInHeap]
                  refine ⟨not_not.mp aligned, inside, not_lt.mp fits, ?_⟩
                  simp only [issues_mmapOutsideHeaps]
                  exact ⟨eq_false_of_ne_true noExec, page, chosen,
                    eq_false_of_ne_true apart, rfl⟩

/-- A mapping that passes the checks returns when the kernel grants it. -/
theorem rockMmap_granted
    {start len : UInt64} {prot flags : UInt32} {fd off : Int} {page : Nat}
    {vm : Vmmap} (aligned : start.toNat % pageSize = 0)
    (below : ¬ (fourGB < start.toNat ∧ mapFixed flags))
    (fits : len.toNat ≤ fourGB) (nonempty : 0 < len.toNat)
    (notHeap : fixedInHeap sandbox start.toNat len.toNat flags = none)
    (noExec : protExec prot = false)
    (chosen : mmapPage sandbox.vm start.toNat len.toNat flags = some page)
    (small : page * pageSize < 2 ^ 64)
    (apart : insecureOverlapRdonly sandbox.modules (page * pageSize) len.toNat
      prot = false)
    (added : vmmapAddWithOverwrite sandbox.vm page
      (roundToPage len.toNat / pageSize) = .ok vm) :
    (rockMmap start len prot flags fd off sandbox).Returns
      ((page * pageSize : Nat), { sandbox with vm := vm }) := by
  have there : page * pageSize % 2 ^ 64 = page * pageSize :=
    Nat.mod_eq_of_lt small
  rw [rockMmap, if_neg (not_not.mpr aligned), if_neg below,
    if_neg (not_lt.mpr fits)]
  simp only [notHeap, mmapOutsideHeaps, noExec, chosen, there, apart,
    Bool.false_eq_true, if_false]
  apply returns_mmap.mpr
  refine Or.inr ⟨nonempty, Nat.mul_mod_left _ _, ?_⟩
  rw [if_pos rfl]
  exact (Syscalls.returns_ofRt _ _ _).mpr ⟨vm, added, rfl⟩

/-- What a returned `rock_mmap` has done to the pager's list. -/
theorem returns_rockMmap
    {start len : UInt64} {prot flags : UInt32} {fd off : Int}
    (returned : (rockMmap start len prot flags fd off sandbox).Returns
      (value, after)) :
    after = sandbox ∨
      ∃ page vm, mmapPage sandbox.vm start.toNat len.toNat flags = some page ∧
        (rockMmap start len prot flags fd off sandbox).Issues
          (.mmap (page * pageSize % 2 ^ 64) len.toNat prot (flags ||| 0x10) fd
            off) ∧
        vmmapAddWithOverwrite sandbox.vm page
          (roundToPage len.toNat / pageSize) = .ok vm ∧
        after = { sandbox with vm := vm } := by
  rcases rockMmap_outcome returned with ⟨same, _⟩ | ⟨page, vm, _, _, done⟩
  · exact Or.inl same
  · exact Or.inr ⟨page, vm, done⟩

/-- `rock_mprotect` leaves the pager's list as it is. -/
theorem returns_rockMprotect
    {addr len : UInt64} {prot : UInt32}
    (returned : (rockMprotect addr len prot sandbox).Returns (value, after)) :
    after = sandbox := by
  rw [rockMprotect] at returned
  split at returned
  next => cases returned
  next =>
    split at returned
    next => cases returned
    next =>
      obtain ⟨answer, _, same⟩ := returned
      cases same
      rfl

/-- What a returned `rock_munmap` has answered, and done to the pager's list. -/
theorem rockMunmap_outcome
    {start len : UInt64}
    (returned : (rockMunmap start len sandbox).Returns (value, after)) :
    (after = sandbox ∧ value < 0) ∨
      ∃ vm, value = 0 ∧ (rockMunmap start len sandbox).Issues
          (.munmap start.toNat len.toNat) ∧
        start.toNat % pageSize = 0 ∧
        vmmapRemove sandbox.vm (roundToPage start.toNat / pageSize)
          (roundToPage len.toNat / pageSize) = .ok vm ∧
        after = { sandbox with vm := vm } := by
  unfold rockMunmap at returned
  simp only at returned
  split at returned
  next => cases returned
  next accepted =>
    rw [returns_munmap] at returned
    rcases returned with failed | ⟨_, aligned, removed⟩
    · rw [if_neg (by decide)] at failed
      cases failed
      exact Or.inl ⟨rfl, by decide⟩
    · rw [if_pos rfl, Syscalls.returns_ofRt] at removed
      obtain ⟨vm, removed, same⟩ := removed
      cases same
      refine Or.inr ⟨vm, rfl, ?_, aligned, removed, rfl⟩
      refine (issues_rockMunmap start len).mpr ⟨?_, ?_, ?_, rfl⟩ <;>
        simp only [fourGB] at * <;> omega

/-- What a returned `rock_munmap` has done to the pager's list. -/
theorem returns_rockMunmap
    {start len : UInt64}
    (returned : (rockMunmap start len sandbox).Returns (value, after)) :
    after = sandbox ∨
      ∃ vm, (rockMunmap start len sandbox).Issues
          (.munmap start.toNat len.toNat) ∧
        start.toNat % pageSize = 0 ∧
        vmmapRemove sandbox.vm (roundToPage start.toNat / pageSize)
          (roundToPage len.toNat / pageSize) = .ok vm ∧
        after = { sandbox with vm := vm } := by
  rcases rockMunmap_outcome returned with ⟨same, _⟩ | ⟨vm, _, done⟩
  · exact Or.inl same
  · exact Or.inr ⟨vm, done⟩

/-- A mapping keeps the pager's regions apart, below a limit that is high enough. -/
theorem sound_rockMmap
    {start len : UInt64} {prot flags : UInt32} {fd off : Int} {limit : Nat}
    (high : 2 * (fourGB / pageSize) ≤ limit) (small : limit < 2 ^ 64)
    (noOverlap : sandbox.vm.NoOverlap) (within : sandbox.vm.Within limit)
    (returned : (rockMmap start len prot flags fd off sandbox).Returns
      (value, after)) :
    after.vm.NoOverlap ∧ after.vm.Within limit := by
  rcases returns_rockMmap returned with rfl | ⟨page, vm, chosen, issued, added,
    rfl⟩
  · exact ⟨noOverlap, within⟩
  · rw [issues_rockMmap] at issued
    obtain ⟨aligned, below, lenBelow, _⟩ := issued
    have pages := mmapPage_some noOverlap within small chosen
    have fits : page + roundToPage len.toNat / pageSize ≤ limit := by
      split at pages
      next fixed =>
        have startBelow : start.toNat ≤ fourGB :=
          not_lt.mp fun past => below ⟨past, fixed⟩
        rw [pages, roundToPage_of_le (by omega)]
        simp only [fourGB, pageSize] at lenBelow startBelow high ⊢
        omega
      next => exact pages.2.fits
    exact ⟨vmmapUpdate_noOverlap noOverlap added,
      vmmapUpdate_within noOverlap within added fun _ => fits⟩

/-- An unmapping keeps the pager's regions apart. -/
theorem sound_rockMunmap
    {start len : UInt64} {limit : Nat}
    (noOverlap : sandbox.vm.NoOverlap) (within : sandbox.vm.Within limit)
    (returned : (rockMunmap start len sandbox).Returns (value, after)) :
    after.vm.NoOverlap ∧ after.vm.Within limit := by
  rcases returns_rockMunmap returned with rfl | ⟨vm, _, _, removed, rfl⟩
  · exact ⟨noOverlap, within⟩
  · exact ⟨vmmapUpdate_noOverlap noOverlap removed,
      vmmapUpdate_within noOverlap within removed
        fun absurdly => by cases absurdly⟩

end Invariant

section Fitting

/-- The checks that refuse a fixed `rock_mmap`. -/
def MmapRefused (sandbox : Sandbox) (start len : UInt64) (prot : UInt32) :
    Prop :=
  start.toNat % pageSize ≠ 0 ∨ fourGB < start.toNat ∨ fourGB < len.toNat ∨
    protExec prot ∨
    insecureOverlapRdonly sandbox.modules start.toNat len.toNat prot

/-- The checks that refuse a `rock_mprotect`. -/
def MprotectRefused (sandbox : Sandbox) (addr len : UInt64) (prot : UInt32) :
    Prop :=
  fourGB < addr.toNat ∨ fourGB < len.toNat ∨ protExec prot ∨
    insecureOverlapRdonly sandbox.modules addr.toNat len.toNat prot

/-- The checks that refuse a `rock_munmap`. -/
def MunmapRefused (start len : UInt64) : Prop :=
  fourGB < start.toNat ∨ fourGB < len.toNat ∨
    fourGB < start.toNat + len.toNat

/-- `rock_mremap` gets no new mapping. -/
def MremapRefused (sandbox : Sandbox) (newLen : UInt64) : Prop :=
  let page := vmmapFindSpace sandbox.vm (roundToPage newLen.toNat / pageSize)
  newLen.toNat = 0 ∨ fourGB < newLen.toNat ∨ page = 0 ∨
    insecureOverlapRdonly sandbox.modules (page * pageSize) newLen.toNat 3

/--
The range that a call names ends in the sandbox, or a check of the call refuses
it.
-/
def MemoryCall.Fits (sandbox : Sandbox) : MemoryCall → Prop
  | mmap start len prot flags _ _ =>
      mapFixed flags → start.toNat + roundToPage len.toNat ≤ fourGB ∨
        MmapRefused sandbox start len prot
  | mprotect addr len prot =>
      addr.toNat + len.toNat ≤ fourGB ∨ MprotectRefused sandbox addr len prot
  | munmap start len =>
      start.toNat + roundToPage len.toNat ≤ fourGB ∨ MunmapRefused start len
  | mremap oldAddr oldLen newLen _ _ =>
      oldAddr.toNat + roundToPage oldLen.toNat ≤ fourGB ∨
        MunmapRefused oldAddr oldLen ∨ MremapRefused sandbox newLen

/-- The code heap that a call changes the protection of. -/
def MemoryCall.heap (sandbox : Sandbox) : MemoryCall → Option CodeModule
  | mmap start len _ flags _ _ =>
      fixedInHeap sandbox start.toNat len.toNat flags
  | _ => none

/-- A kernel call stays in the sandbox, and in the heap that the call is about. -/
def MemoryCall.Contained (sandbox : Sandbox) (call : MemoryCall)
    (request : KernelCall) : Prop :=
  request.stop ≤ fourGB ∧
    ∀ heap, call.heap sandbox = some heap →
      heap.baseAddr ≤ request.addr ∧
        request.stop ≤ heap.baseAddr + heap.sz

variable {sandbox after : Sandbox}

/-- The pages of a mapping outside the heaps, and where they end. -/
theorem mmapPage_stop
    {limit start len page : Nat} {flags : UInt32}
    (noOverlap : sandbox.vm.NoOverlap) (within : sandbox.vm.Within limit)
    (small : limit ≤ 2 ^ 32) (lenBelow : len ≤ fourGB)
    (startBelow : mapFixed flags → start ≤ fourGB)
    (startAligned : start % pageSize = 0)
    (chosen : mmapPage sandbox.vm start len flags = some page) :
    page * pageSize % 2 ^ 64 = page * pageSize ∧
      if mapFixed flags then page * pageSize = start
      else page * pageSize + roundToPage len ≤ limit * pageSize ∧
        Gap sandbox.vm limit page (roundToPage len / pageSize) := by
  have pages := mmapPage_some noOverlap within (by omega) chosen
  have rounded : roundToPage len = (len + 4095) / 4096 * 4096 :=
    roundToPage_of_le (by omega)
  split at pages
  next fixed =>
    rw [if_pos fixed]
    have below := startBelow fixed
    simp only [fourGB, pageSize] at *
    omega
  next notFixed =>
    rw [if_neg notFixed]
    have fits := pages.2.fits
    refine ⟨?_, ?_, pages.2⟩ <;> simp only [fourGB, pageSize] at * <;> omega

/-- A fixed mapping in a code heap stays in the heap. -/
theorem mprotectRequest_inHeap
    (wellFormed : sandbox.WellFormed) {start len : Nat} {flags : UInt32}
    (prot : UInt32) {heap : CodeModule} (lenBelow : len ≤ fourGB) (startBelow : start ≤ fourGB)
    (startAligned : start % pageSize = 0)
    (inHeap : fixedInHeap sandbox start len flags = some heap) :
    heap.baseAddr ≤ (mprotectRequest start len prot).addr ∧
      (mprotectRequest start len prot).stop ≤ heap.baseAddr + heap.sz ∧
      heap.baseAddr + heap.sz ≤ fourGB ∧ start + roundToPage len ≤ fourGB := by
  obtain ⟨_, member, isHeap, low, high⟩ := fixedInHeap_some inHeap
  have inside := wellFormed.heaps heap member isHeap
  have baseAligned := heap.baseAligned
  have sizeAligned := heap.sizeAligned
  obtain ⟨addrIs, stopIs⟩ := mprotectRequest_stop prot startBelow lenBelow
  rw [addrIs, stopIs, roundToPage_of_le (by omega)]
  simp only [fourGB, pageSize] at *
  omega

/-- A fixed or a free mapping stays inside exactly when it fits. -/
theorem rockMmap_contained_iff
    (wellFormed : sandbox.WellFormed)
    (start len : UInt64) (prot flags : UInt32) (fd off : Int) :
    (∀ request, (rockMmap start len prot flags fd off sandbox).Issues request →
        (MemoryCall.mmap start len prot flags fd off).Contained sandbox
          request) ↔
      (MemoryCall.mmap start len prot flags fd off).Fits sandbox := by
  simp only [issues_rockMmap, MemoryCall.Contained, MemoryCall.heap,
    MemoryCall.Fits]
  constructor
  · intro contained fixed
    by_contra outside
    simp only [MmapRefused, not_or, not_not, not_lt, Bool.not_eq_true]
      at outside
    obtain ⟨past, aligned, startBelow, lenBelow, noExec, apart⟩ := outside
    cases inHeap : fixedInHeap sandbox start.toNat len.toNat flags with
    | some heap =>
        have stays := (mprotectRequest_inHeap wellFormed prot lenBelow
          startBelow aligned inHeap).2.2.2
        exact past stays
    | none =>
        have chosen : mmapPage sandbox.vm start.toNat len.toNat flags =
            some (start.toNat / pageSize) := by
          unfold mmapPage
          simp [fixed, not_lt.mpr lenBelow]
        have place : start.toNat / pageSize * pageSize % 2 ^ 64 =
            start.toNat := by
          have below := start.toNat_lt
          simp only [pageSize] at *
          omega
        have issued := contained (.mmap start.toNat len.toNat prot
          (flags ||| 0x10) fd off)
        rw [inHeap] at issued
        simp only [issues_mmapOutsideHeaps] at issued
        refine past (issued ⟨aligned, by omega, lenBelow, noExec, _, chosen, ?_,
          by rw [place]⟩).1
        rw [place]
        exact apart
  · rintro fits request ⟨aligned, below, lenBelow, issued⟩
    have startBelow : mapFixed flags → start.toNat ≤ fourGB :=
      fun fixed => not_lt.mp fun past => below ⟨past, fixed⟩
    cases inHeap : fixedInHeap sandbox start.toNat len.toNat flags with
    | some heap =>
        rw [inHeap] at issued
        obtain ⟨_, _, rfl⟩ := issued
        have fixed := (fixedInHeap_some inHeap).1
        obtain ⟨low, high, inside, _⟩ := mprotectRequest_inHeap
          wellFormed prot lenBelow (startBelow fixed) aligned inHeap
        refine ⟨high.trans inside, fun other same => ?_⟩
        cases same
        exact ⟨low, high⟩
    | none =>
        rw [inHeap] at issued
        simp only [issues_mmapOutsideHeaps] at issued
        obtain ⟨noExec, page, chosen, apart, rfl⟩ := issued
        refine ⟨?_, fun _ absurdly => by cases absurdly⟩
        obtain ⟨place, stops⟩ :=
          mmapPage_stop wellFormed.noOverlap wellFormed.within (by decide)
            lenBelow startBelow aligned chosen
        rw [place] at apart
        simp only [KernelCall.stop, KernelCall.addr, KernelCall.len, place]
        split at stops
        next fixed =>
          rw [stops] at apart ⊢
          rcases fits fixed with inside | refused
          · exact inside
          · simp only [MmapRefused, aligned, noExec, apart, ne_eq,
              not_true_eq_false, Bool.false_eq_true, or_false,
              not_lt.mpr lenBelow, not_lt.mpr (startBelow fixed)] at refused
        next => exact stops.1

/-- `rock_mprotect` stays inside exactly when its range ends there. -/
theorem rockMprotect_contained_iff
    (addr len : UInt64) (prot : UInt32) :
    (∀ request, (rockMprotect addr len prot sandbox).Issues request →
        (MemoryCall.mprotect addr len prot).Contained sandbox request) ↔
      (MemoryCall.mprotect addr len prot).Fits sandbox := by
  simp only [issues_rockMprotect, MemoryCall.Contained, MemoryCall.heap,
    MemoryCall.Fits, MprotectRefused, reduceCtorEq, false_implies,
    implies_true, and_true]
  constructor
  · intro contained
    by_contra outside
    simp only [not_or, not_le, not_lt, Bool.not_eq_true] at outside
    obtain ⟨past, addrBelow, lenBelow, noExec, apart⟩ := outside
    have stays := contained _ ⟨addrBelow, lenBelow, noExec, apart, rfl⟩
    rw [(mprotectRequest_stop prot addrBelow lenBelow).2] at stays
    omega
  · rintro fits request ⟨addrBelow, lenBelow, noExec, apart, rfl⟩
    rw [(mprotectRequest_stop prot addrBelow lenBelow).2]
    simp only [noExec, apart, Bool.false_eq_true, or_false] at fits
    simp only [fourGB] at *
    omega

/-- `rock_munmap` stays inside exactly when its range fits. -/
theorem munmap_contained_iff
    (call : MemoryCall) (noHeap : call.heap sandbox = none)
    (start len : UInt64) :
    (∀ request, (rockMunmap start len sandbox).Issues request →
        call.Contained sandbox request) ↔
      start.toNat + roundToPage len.toNat ≤ fourGB ∨
        MunmapRefused start len := by
  simp only [issues_rockMunmap, MemoryCall.Contained, noHeap, MunmapRefused,
    reduceCtorEq, false_implies, implies_true, and_true]
  constructor
  · intro contained
    by_contra outside
    simp only [not_or, not_le, not_lt] at outside
    exact absurd (contained _ ⟨outside.2.1, outside.2.2.1, outside.2.2.2, rfl⟩)
      (not_le.mpr outside.1)
  · rintro fits request ⟨startBelow, lenBelow, sumBelow, rfl⟩
    rcases fits with inside | refused
    · exact inside
    · omega

/-- The mapping that `rock_mremap` asks for is no fixed one. -/
private theorem rockMmap_fresh (newLen : UInt64) :
    rockMmap 0 newLen 3 0x22 (-1) 0 sandbox =
      if fourGB < newLen.toNat then .done (-enomem, sandbox)
      else mmapOutsideHeaps 0 newLen.toNat 3 0x22 (-1) 0 sandbox := by
  have notFixed : mapFixed 0x22 = false := by decide
  simp [rockMmap, fixedInHeap, notFixed]

/-- The new mapping of `rock_mremap` is made unless a check refuses it. -/
theorem freshMapping_iff
    {limit : Nat} (noOverlap : sandbox.vm.NoOverlap)
    (within : sandbox.vm.Within limit) (small : limit ≤ 2 ^ 32)
    (newLen : UInt64) :
    (∃ ptr after, (rockMmap 0 newLen 3 0x22 (-1) 0 sandbox).Returns
        (ptr, after) ∧ 0 < ptr) ↔
      ¬ MremapRefused sandbox newLen := by
  have notFixed : mapFixed 0x22 = false := by decide
  have noExec : protExec 3 = false := by decide
  have page : mmapPage sandbox.vm 0 newLen.toNat 0x22 =
      if vmmapFindSpace sandbox.vm (roundToPage newLen.toNat / pageSize) = 0
      then none
      else some (vmmapFindSpace sandbox.vm
        (roundToPage newLen.toNat / pageSize)) := by
    simp [mmapPage, notFixed]
  rw [rockMmap_fresh]
  simp only [MremapRefused, not_or, not_lt, Bool.not_eq_true]
  split
  next tooLong =>
    refine iff_of_false ?_ (by omega)
    rintro ⟨_, _, same, positive⟩
    cases same
    exact absurd positive (by decide)
  next lenBelow =>
    rw [not_lt] at lenBelow
    simp only [mmapOutsideHeaps, noExec, page, Bool.false_eq_true, if_false]
    by_cases noSpace :
        vmmapFindSpace sandbox.vm (roundToPage newLen.toNat / pageSize) = 0
    · simp only [noSpace, if_true]
      refine iff_of_false ?_ (fun accepted => accepted.2.2.1 trivial)
      rintro ⟨_, _, same, positive⟩
      cases same
      exact absurd positive (by decide)
    · simp only [noSpace, if_false]
      have place := (mmapPage_stop noOverlap within small lenBelow
        (by simp [notFixed]) rfl (page.trans (if_neg noSpace))).1
      rw [place]
      split
      next overlaps =>
        refine iff_of_false ?_ (fun accepted => ?_)
        · rintro ⟨_, _, returned, _⟩
          exact returned
        · rw [overlaps] at accepted
          exact absurd accepted.2.2.2 (by decide)
      next apart =>
        rw [Bool.not_eq_true] at apart
        simp only [returns_mmap, apart, lenBelow, not_false_eq_true, and_true]
        constructor
        · rintro ⟨_, _, failed | ⟨nonempty, _, _⟩, positive⟩
          · split at failed
            next absurdly => omega
            next =>
              cases failed
              exact absurd positive (by decide)
          · omega
        · intro nonempty
          have somePages : 0 < roundToPage newLen.toNat / pageSize := by
            rw [roundToPage_of_le (by omega)]
            simp only [pageSize]
            omega
          have positive := Nat.pos_of_ne_zero noSpace
          obtain ⟨vm, added⟩ := vmmapAddWithOverwrite_ok sandbox.vm
            (vmmapFindSpace sandbox.vm (roundToPage newLen.toNat / pageSize))
            somePages
          refine ⟨_, { sandbox with vm := vm },
            Or.inr ⟨by omega, Nat.mul_mod_left _ _, ?_⟩,
            Int.natCast_pos.mpr (Nat.mul_pos positive (by decide : 0 < pageSize))⟩
          rw [if_pos trivial, Syscalls.returns_ofRt]
          exact ⟨vm, added, rfl⟩

/-- What `rock_mremap` asks for. -/
theorem issues_rockMremap
    (oldAddr oldLen newLen : UInt64) (flags : UInt32) (newAddr : UInt64)
    (request : KernelCall) :
    (rockMremap oldAddr oldLen newLen flags newAddr sandbox).Issues request ↔
      (rockMmap 0 newLen 3 0x22 (-1) 0 sandbox).Issues request ∨
        ((∃ ptr after, (rockMmap 0 newLen 3 0x22 (-1) 0 sandbox).Returns
          (ptr, after) ∧ 0 < ptr) ∧
          (rockMunmap oldAddr oldLen sandbox).Issues request) := by
  rw [rockMremap, Syscalls.issues_bind]
  apply or_congr_right
  constructor
  · rintro ⟨⟨ptr, middle⟩, returned, later⟩
    simp only at later
    split at later
    next positive =>
      rw [Syscalls.issues_bind] at later
      rcases later with issued | ⟨_, _, absurdly⟩
      · rw [issues_rockMunmap] at issued ⊢
        exact ⟨⟨ptr, middle, returned, positive⟩, issued⟩
      · exact absurdly.elim
    next => exact later.elim
  · rintro ⟨⟨ptr, middle, returned, positive⟩, issued⟩
    refine ⟨(ptr, middle), returned, ?_⟩
    simp only
    rw [if_pos positive, Syscalls.issues_bind, issues_rockMunmap]
    rw [issues_rockMunmap] at issued
    exact Or.inl issued

/-- `rock_mremap` stays inside exactly when its old range fits. -/
theorem rockMremap_contained_iff
    (wellFormed : sandbox.WellFormed)
    (oldAddr oldLen newLen : UInt64) (flags : UInt32) (newAddr : UInt64) :
    (∀ request, (rockMremap oldAddr oldLen newLen flags newAddr
          sandbox).Issues request →
        (MemoryCall.mremap oldAddr oldLen newLen flags newAddr).Contained
          sandbox request) ↔
      (MemoryCall.mremap oldAddr oldLen newLen flags newAddr).Fits
        sandbox := by
  have fresh : ∀ request, (rockMmap 0 newLen 3 0x22 (-1) 0 sandbox).Issues
      request → request.stop ≤ fourGB := fun request issued =>
    ((rockMmap_contained_iff wellFormed 0 newLen 3 0x22 (-1) 0).mpr
      (fun fixed => absurd fixed (by decide)) request issued).1
  have unmapped := @munmap_contained_iff sandbox
    (.mremap oldAddr oldLen newLen flags newAddr) rfl oldAddr oldLen
  simp only [issues_rockMremap, MemoryCall.Fits, ← or_assoc, ← unmapped,
    freshMapping_iff wellFormed.noOverlap wellFormed.within (by decide)]
  by_cases refused : MremapRefused sandbox newLen
  · simp only [refused, not_true_eq_false, false_and, or_false, or_true,
      iff_true]
    exact fun request issued =>
      ⟨fresh request issued, fun _ absurdly => by cases absurdly⟩
  · simp only [refused, not_false_eq_true, true_and, or_false]
    constructor
    · exact fun contained request issued => contained request (Or.inr issued)
    · rintro contained request (issued | issued)
      · exact ⟨fresh request issued, fun _ absurdly => by cases absurdly⟩
      · exact contained request issued

end Fitting

section Runs

/-- The sandboxes that fitting calls reach, whatever the kernel answers. -/
inductive FittingRun (start : Sandbox) : Sandbox → Prop where
  | start : FittingRun start start
  | call
      {before after : Sandbox} {call : MemoryCall} {value : Int}
      (run : FittingRun start before) (fits : call.Fits before)
      (returned : (call.program before).Returns (value, after)) :
      FittingRun start after

/-- A call makes this mapping. -/
inductive MemoryCall.Maps : MemoryCall → UInt64 → UInt64 → UInt32 → UInt32 →
    Int → Int → Prop where
  | mmap (start len : UInt64) (prot flags : UInt32) (fd off : Int) :
      Maps (.mmap start len prot flags fd off) start len prot flags fd off
  | mremap (oldAddr oldLen newLen : UInt64) (flags : UInt32)
      (newAddr : UInt64) :
      Maps (.mremap oldAddr oldLen newLen flags newAddr) 0 newLen 3 0x22 (-1) 0

variable {before after : Sandbox}

/-- Overwriting a region inside keeps the sandbox well formed. -/
private theorem wellFormed_added
    (wellFormed : before.WellFormed) {page npages : Nat} {vm : Vmmap}
    (inside : page + npages ≤ fourGB / pageSize)
    (added : vmmapAddWithOverwrite before.vm page npages = .ok vm) :
    Sandbox.WellFormed { before with vm := vm } where
  noOverlap := vmmapUpdate_noOverlap wellFormed.noOverlap added
  within := vmmapUpdate_within wellFormed.noOverlap wellFormed.within added
    fun _ => inside
  heaps := wellFormed.heaps

/-- Removing a region keeps the sandbox well formed. -/
private theorem wellFormed_removed
    (wellFormed : before.WellFormed) {page npages : Nat} {vm : Vmmap}
    (removed : vmmapRemove before.vm page npages = .ok vm) :
    Sandbox.WellFormed { before with vm := vm } where
  noOverlap := vmmapUpdate_noOverlap wellFormed.noOverlap removed
  within := vmmapUpdate_within wellFormed.noOverlap wellFormed.within removed
    fun absurdly => by cases absurdly
  heaps := wellFormed.heaps

/-- A mapping that fits keeps the sandbox well formed. -/
private theorem wellFormed_rockMmap
    (wellFormed : before.WellFormed)
    {start len : UInt64} {prot flags : UInt32} {fd off value : Int}
    (fits : (MemoryCall.mmap start len prot flags fd off).Fits before)
    (returned : (rockMmap start len prot flags fd off before).Returns
      (value, after)) :
    after.WellFormed := by
  rcases returns_rockMmap returned with rfl | ⟨page, vm, chosen, issued, added,
    rfl⟩
  · exact wellFormed
  · have contained := ((rockMmap_contained_iff wellFormed start len prot flags
      fd off).mpr fits _ issued).1
    rw [issues_rockMmap] at issued
    obtain ⟨aligned, below, lenBelow, _⟩ := issued
    have place := (mmapPage_stop wellFormed.noOverlap wellFormed.within
      (by decide) lenBelow (fun fixed => not_lt.mp fun past => below
        ⟨past, fixed⟩) aligned chosen).1
    simp only [KernelCall.stop, KernelCall.addr, KernelCall.len, place]
      at contained
    refine wellFormed_added wellFormed ?_ added
    rw [roundToPage_of_le (by omega)] at contained ⊢
    simp only [fourGB, pageSize] at *
    omega

/-- Unmapping keeps the sandbox well formed. -/
private theorem wellFormed_rockMunmap
    (wellFormed : before.WellFormed) {start len : UInt64} {value : Int}
    (returned : (rockMunmap start len before).Returns (value, after)) :
    after.WellFormed := by
  rcases returns_rockMunmap returned with rfl | ⟨vm, _, _, removed, rfl⟩
  · exact wellFormed
  · exact wellFormed_removed wellFormed removed

/--
What mapping and unmapping preserve, every call preserves; a call unmaps only
what it asks the kernel to unmap.
-/
theorem MemoryCall.invariant
    {motive : Sandbox → Prop} {call : MemoryCall} {value : Int}
    (returned : (call.program before).Returns (value, after))
    (maps : ∀ {source target start len prot flags fd off value},
      (∀ request, (rockMmap start len prot flags fd off source).Issues
        request → (call.program before).Issues request) →
      call.Maps start len prot flags fd off → motive source →
        (rockMmap start len prot flags fd off source).Returns
          (value, target) → motive target)
    (unmaps : ∀ {source target start len value},
      (∀ request, (rockMunmap start len source).Issues request →
        (call.program before).Issues request) → motive source →
        (rockMunmap start len source).Returns (value, target) →
          motive target)
    (initial : motive before) : motive after := by
  cases call with
  | mmap start len prot flags fd off =>
      exact maps (fun _ issued => issued) (.mmap ..) initial returned
  | mprotect addr len prot =>
      rw [returns_rockMprotect returned]
      exact initial
  | munmap start len =>
      exact unmaps (fun _ issued => issued) initial returned
  | mremap oldAddr oldLen newLen flags newAddr =>
      have issues : ∀ request, ((MemoryCall.mremap oldAddr oldLen newLen flags
          newAddr).program before).Issues request ↔ _ :=
        issues_rockMremap oldAddr oldLen newLen flags newAddr
      rw [MemoryCall.program, rockMremap, Syscalls.returns_bind] at returned
      obtain ⟨⟨ptr, middle⟩, mapped, returned⟩ := returned
      have between : motive middle :=
        maps (fun request issued => (issues request).mpr (Or.inl issued))
          (.mremap ..) initial mapped
      simp only at returned
      split at returned
      next positive =>
        rw [Syscalls.returns_bind] at returned
        obtain ⟨⟨_, last⟩, unmapped, same⟩ := returned
        cases same
        refine unmaps (fun request issued => ?_) between unmapped
        rw [issues_rockMunmap] at issued
        refine (issues request).mpr (Or.inr ⟨⟨_, middle, mapped, positive⟩, ?_⟩)
        rw [issues_rockMunmap]
        exact issued
      next =>
        cases returned
        exact between

/-- Calls that fit keep the sandbox well formed. -/
theorem wellFormed_call
    (wellFormed : before.WellFormed) {call : MemoryCall} {value : Int}
    (fits : call.Fits before)
    (returned : (call.program before).Returns (value, after)) :
    after.WellFormed := by
  have both : after.WellFormed ∧ after.modules = before.modules := by
    refine MemoryCall.invariant
      (motive := fun middle => middle.WellFormed ∧
        middle.modules = before.modules) returned ?_ ?_ ⟨wellFormed, rfl⟩
    · rintro source target start len prot flags fd off value _ maps
        ⟨between, modules⟩ mapped
      have fits' : (MemoryCall.mmap start len prot flags fd off).Fits
          source := by
        cases maps with
        | mmap => simpa only [MemoryCall.Fits, MmapRefused, modules] using fits
        | mremap => exact fun fixed => absurd fixed (by decide)
      refine ⟨wellFormed_rockMmap between fits' mapped, ?_⟩
      rcases returns_rockMmap mapped with rfl | ⟨_, _, _, _, _, rfl⟩ <;>
        exact modules
    · rintro source target start len value _ ⟨between, modules⟩ unmapped
      refine ⟨wellFormed_rockMunmap between unmapped, ?_⟩
      rcases returns_rockMunmap unmapped with rfl | ⟨_, _, _, _, rfl⟩ <;>
        exact modules
  exact both.1

/--
In a sandbox that fitting calls have reached, everything that a call asks the
kernel for stays inside, exactly when the call fits.
-/
theorem memoryCalls_contained_iff
    {start sandbox : Sandbox} (wellFormed : start.WellFormed)
    (run : FittingRun start sandbox) (call : MemoryCall) :
    (∀ request, (call.program sandbox).Issues request →
        call.Contained sandbox request) ↔
      call.Fits sandbox := by
  have reached : sandbox.WellFormed := by
    induction run with
    | start => exact wellFormed
    | call _ fits returned inductionHypothesis =>
        exact wellFormed_call inductionHypothesis fits returned
  cases call with
  | mmap start len prot flags fd off =>
      exact rockMmap_contained_iff reached start len prot flags fd off
  | mprotect addr len prot =>
      exact rockMprotect_contained_iff addr len prot
  | munmap start len =>
      exact munmap_contained_iff (.munmap start len) rfl start len
  | mremap oldAddr oldLen newLen flags newAddr =>
      exact rockMremap_contained_iff reached oldAddr oldLen newLen flags newAddr

end Runs

section Boot

/-- The sandbox after `alloc_sandbox`: the ABI gap and the stack. -/
def allocSandbox : Sandbox where
  vm := [⟨0, 0x400⟩, ⟨0xFF800, 0x800⟩]
  modules := []

theorem wellFormed_allocSandbox : allocSandbox.WellFormed where
  noOverlap := ⟨by decide, by
    simp [allocSandbox, Spans.Apart, VmmapEntry.endPage]⟩
  within := by simp [allocSandbox, Vmmap.Within, VmmapEntry.endPage, fourGB,
    pageSize]
  heaps := by simp [allocSandbox]

/-- The last page of the sandbox with the page behind it, mapped in one call. -/
def straddlingMmap : MemoryCall :=
  .mmap 0xFFFFF000 0x2000 3 0x32 (-1) 0

/-- A fixed mapping leaves the sandbox: `page` is still zero when it is tested. -/
theorem mmap_leaves_sandbox :
    ¬ ∀ (call : MemoryCall) (request : KernelCall),
      (call.program allocSandbox).Issues request →
        call.Contained allocSandbox request := by
  intro contained
  have issued : (straddlingMmap.program allocSandbox).Issues
      (.mmap 0xFFFFF000 0x2000 3 0x32 (-1) 0) := by
    simp only [straddlingMmap, MemoryCall.program, issues_rockMmap]
    have notHeap : fixedInHeap allocSandbox (0xFFFFF000 : UInt64).toNat
        (0x2000 : UInt64).toNat 0x32 = none := by decide
    rw [notHeap]
    simp only [issues_mmapOutsideHeaps]
    exact ⟨by decide, by decide, by decide, by decide, 0xFFFFF, by decide,
      by decide, rfl⟩
  have inside := (contained straddlingMmap _ issued).1
  exact absurd inside (by decide)

/-- Unmapping two pages of the gap, in the sandbox as it starts. -/
theorem memoryCalls_contained_boot :
    (MemoryCall.munmap 0x400000 0x2000).Contained allocSandbox
      (.munmap 0x400000 0x2000) := by
  have contained := (memoryCalls_contained_iff wellFormed_allocSandbox .start
    (.munmap 0x400000 0x2000)).mpr (Or.inl (by decide))
  apply contained
  rw [MemoryCall.program, issues_rockMunmap]
  exact ⟨by decide, by decide, by decide, rfl⟩

end Boot

end Mcfi
