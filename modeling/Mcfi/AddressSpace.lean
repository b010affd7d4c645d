import Mcfi.Containment

namespace Mcfi

/-!
# The address space and the kernel

What the program can see at its pages: which memory is mapped there, and with
which protection.  The kernel is any transition relation that does what the
manual pages of its calls say; a call may fail, and may have changed some of its
pages before it does.
-/

/-- The memory behind a page. -/
inductive Frame where
  /-- The memory that the loader or `create_code_heap` put at a page. -/
  | own (page : Nat)
  /-- Any other memory: anonymous pages and files. -/
  | other (id : Nat)
  deriving DecidableEq

/-- A mapped page. -/
structure Page where
  frame : Frame
  prot : UInt32
  deriving DecidableEq

/-- The pages of the program. -/
abbrev PageMap := Nat → Option Page

namespace KernelCall

/-- A page lies in the range of a kernel call. -/
def Touches (request : KernelCall) (page : Nat) : Prop :=
  request.addr < (page + 1) * pageSize ∧ page * pageSize < request.stop

instance (request : KernelCall) (page : Nat) :
    Decidable (request.Touches page) :=
  inferInstanceAs (Decidable (_ ∧ _))

/-- What a kernel call may do to a page in its range. -/
def Effect (request : KernelCall) (before after : Option Page) : Prop :=
  after = before ∨
    match request with
    | mmap _ _ prot _ _ _ =>
        after = none ∨ ∃ id, after = some ⟨.other id, prot⟩
    | mprotect _ _ prot =>
        after = before.map fun page => { page with prot := prot }
    | munmap _ _ => after = none

end KernelCall

/-- A kernel, as far as its manual pages describe it. -/
structure Kernel where
  Step : KernelCall → PageMap → Int → PageMap → Prop
  answers : ∀ {request before answer after},
    Step request before answer after → request.Answers answer
  outside : ∀ {request before answer after},
    Step request before answer after →
      ∀ page, ¬ request.Touches page → after page = before page
  inside : ∀ {request before answer after},
    Step request before answer after →
      ∀ page, request.Touches page →
        request.Effect (before page) (after page)
  misaligned : ∀ {request before answer after},
    Step request before answer after →
      request.addr % pageSize ≠ 0 → after = before

namespace Syscalls

variable {α β : Type} (kernel : Kernel)

/-- A program runs to its end on a kernel. -/
def Runs : Syscalls α → PageMap → α → PageMap → Prop
  | done value, before, result, after => value = result ∧ after = before
  | stop _, _, _, _ => False
  | issue request resume, before, result, after =>
      ∃ answer middle, kernel.Step request before answer middle ∧
        (resume answer).Runs middle result after

variable {kernel} {program : Syscalls α} {before after : PageMap} {result : α}

/-- A run gets documented answers. -/
theorem Runs.returns (runs : program.Runs kernel before result after) :
    program.Returns result := by
  induction program generalizing before with
  | done value => exact runs.1
  | stop fault => exact runs
  | issue request resume inductionHypothesis =>
      obtain ⟨answer, middle, step, later⟩ := runs
      exact ⟨answer, kernel.answers step, inductionHypothesis answer later⟩

/-- What the kernel calls of a program preserve, its run preserves. -/
theorem Runs.invariant
    {motive : PageMap → Prop} (runs : program.Runs kernel before result after)
    (preserved : ∀ {request pages answer next}, program.Issues request →
      kernel.Step request pages answer next → motive pages → motive next)
    (initial : motive before) : motive after := by
  induction program generalizing before with
  | done value =>
      rw [runs.2]
      exact initial
  | stop fault => exact runs.elim
  | issue own resume inductionHypothesis =>
      obtain ⟨answer, middle, step, later⟩ := runs
      refine inductionHypothesis answer later ?_
        (preserved (Or.inl rfl) step initial)
      intro request pages reply next issued
      exact preserved (Or.inr ⟨answer, kernel.answers step, issued⟩)

/-- The kernel calls of a sequence of two programs, one after the other. -/
theorem runs_bind
    (first : Syscalls α) (next : α → Syscalls β) {last : β} :
    (first >>= next).Runs kernel before last after ↔
      ∃ value middle, first.Runs kernel before value middle ∧
        (next value).Runs kernel middle last after := by
  induction first generalizing before with
  | done value =>
      constructor
      · exact fun runs => ⟨value, before, ⟨rfl, rfl⟩, runs⟩
      · rintro ⟨_, _, ⟨rfl, rfl⟩, runs⟩
        exact runs
  | stop fault =>
      constructor
      · exact fun runs => runs.elim
      · rintro ⟨_, _, absurdly, _⟩
        exact absurdly.elim
  | issue own resume inductionHypothesis =>
      constructor
      · rintro ⟨answer, middle, step, later⟩
        obtain ⟨value, between, front, back⟩ :=
          (inductionHypothesis answer).mp later
        exact ⟨value, between, ⟨answer, middle, step, front⟩, back⟩
      · rintro ⟨value, between, ⟨answer, middle, step, front⟩, back⟩
        exact ⟨answer, middle, step,
          (inductionHypothesis answer).mpr ⟨value, between, front, back⟩⟩

end Syscalls

/-- The pager with the modules, and the pages. -/
structure AddressSpace where
  sandbox : Sandbox
  pages : PageMap

/-- The address spaces that allowed memory calls reach. -/
inductive MemoryRun (kernel : Kernel) (Allowed : Sandbox → MemoryCall → Prop)
    (start : AddressSpace) : AddressSpace → Prop where
  | start : MemoryRun kernel Allowed start start
  | call
      {before : AddressSpace} {call : MemoryCall} {value : Int}
      {sandbox : Sandbox} {pages : PageMap}
      (run : MemoryRun kernel Allowed start before)
      (allowed : Allowed before.sandbox call)
      (runs : (call.program before.sandbox).Runs kernel before.pages
        (value, sandbox) pages) :
      MemoryRun kernel Allowed start ⟨sandbox, pages⟩

section Granting

/-- The answer to a request that is granted. -/
def grantedAnswer : KernelCall → Int
  | .mmap addr _ _ _ _ _ => addr
  | _ => 0

/-- What granting a request makes of a page in its range. -/
def grantedPage (before : Option Page) : KernelCall → Option Page
  | .mmap _ _ prot _ fd _ => some ⟨.other fd.toNat, prot⟩
  | .mprotect _ _ prot => before.map fun mapped => { mapped with prot := prot }
  | .munmap _ _ => none

/-- The pages after a request that is granted. -/
def grantedPages (request : KernelCall) (before : PageMap) : PageMap :=
  fun page =>
    if request.Touches page then grantedPage (before page) request
    else before page

/-- A kernel that grants every request on whole pages, and fails for no other. -/
def grantingKernel : Kernel where
  Step request before answer after :=
    request.addr % pageSize = 0 ∧ 0 < request.len ∧
      answer = grantedAnswer request ∧ after = grantedPages request before
  answers := by
    rintro request before answer after ⟨aligned, nonempty, rfl, rfl⟩
    cases request with
    | mmap addr len prot flags fd off =>
        exact Or.inr ⟨rfl, nonempty, aligned⟩
    | mprotect addr len prot => exact Or.inr rfl
    | munmap addr len => exact Or.inr ⟨rfl, nonempty, aligned⟩
  outside := by
    rintro request before answer after ⟨_, _, rfl, rfl⟩ page outside
    exact if_neg outside
  inside := by
    rintro request before answer after ⟨_, _, rfl, rfl⟩ page inside
    rw [grantedPages, if_pos inside]
    cases request with
    | mmap addr len prot flags fd off => exact Or.inr (Or.inr ⟨_, rfl⟩)
    | mprotect addr len prot => exact Or.inr rfl
    | munmap addr len => exact Or.inr rfl
  misaligned := by
    rintro request before answer after ⟨aligned, _⟩ misaligned
    exact absurd aligned misaligned

end Granting

end Mcfi
