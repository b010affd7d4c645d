import Mcfi.CodeHeap
import Mcfi.Pager

namespace Mcfi

/-!
# The memory calls of the sandbox

`rock_mmap`, `rock_mprotect`, `rock_munmap` and `rock_mremap` check their
arguments, ask the kernel and keep the pager's list.  A call is modelled as a
program that issues kernel calls and goes on with the answers, so that what it
may ask for can be read off without a kernel.

The arguments are 64-bit words and the protection and flags are C integers;
sums of addresses wrap around.
-/

section Kernel

/-- The calls that the runtime makes to the kernel, with their arguments. -/
inductive KernelCall where
  | mmap (addr len : Nat) (prot flags : UInt32) (fd off : Int)
  | mprotect (addr len : Nat) (prot : UInt32)
  | munmap (addr len : Nat)
  deriving DecidableEq

/-- A call of the runtime, with the kernel calls that it makes on its way. -/
inductive Syscalls (α : Type) where
  | done (value : α)
  | stop (fault : Fault)
  | issue (request : KernelCall) (resume : Int → Syscalls α)

namespace Syscalls

variable {α β : Type}

/-- Go on with what a program returns. -/
def bind : Syscalls α → (α → Syscalls β) → Syscalls β
  | done value, next => next value
  | stop fault, _ => stop fault
  | issue request resume, next =>
      issue request fun answer => (resume answer).bind next

instance : Monad Syscalls where
  pure := done
  bind := bind

/-- A part that makes no kernel call. -/
def ofRt : Rt α → Syscalls α
  | .ok value => done value
  | .error fault => stop fault

end Syscalls

/-- `PROT_WRITE`. -/
def protWrite (prot : UInt32) : Bool :=
  prot &&& 2 != 0

/-- `PROT_EXEC`. -/
def protExec (prot : UInt32) : Bool :=
  prot &&& 4 != 0

/-- `MAP_FIXED`. -/
def mapFixed (flags : UInt32) : Bool :=
  flags &&& 0x10 != 0

/-- `RoundToPage`, on 64-bit numbers. -/
def roundToPage (value : Nat) : Nat :=
  (value + (pageSize - 1)) % 2 ^ 64 / pageSize * pageSize

/-- `mprotect` of `mm/mprotect.c`, which rounds the range to whole pages. -/
def mprotect {α : Type} (addr len : Nat) (prot : UInt32)
    (next : Int → Syscalls α) : Syscalls α :=
  let start := addr / pageSize * pageSize
  let stop := roundToPage ((addr + len) % 2 ^ 64)
  .issue (.mprotect start (sub64 stop start) prot) fun answer =>
    next (if answer < 0 then -1 else answer)

/-- `mmap` of `mm/mmap.c`. -/
def mmap {α : Type} (addr len : Nat) (prot flags : UInt32) (fd off : Int)
    (next : Int → Syscalls α) : Syscalls α :=
  .issue (.mmap addr len prot flags fd off) fun answer =>
    next (if answer < 0 then -1 else answer)

/-- `munmap` of `mm/munmap.c`. -/
def munmap {α : Type} (addr len : Nat) (next : Int → Syscalls α) :
    Syscalls α :=
  .issue (.munmap addr len) fun answer =>
    next (if answer < 0 then -1 else answer)

end Kernel

/-- The state of the memory calls: the pager and the modules. -/
structure Sandbox where
  vm : Vmmap
  modules : List CodeModule

section Overlap

/-- `range_overlap`. -/
def rangeOverlap (r1 len1 r2 len2 : Nat) : Bool :=
  r1 == r2 || (r1 < r2 && r2 < (r1 + len1) % 2 ^ 64) ||
    (r2 < r1 && r1 < (r2 + len2) % 2 ^ 64)

/-- `insecure_overlap_rdonly`. -/
def insecureOverlapRdonly (modules : List CodeModule) (start len : Nat)
    (prot : UInt32) : Bool :=
  protWrite prot && modules.any fun m =>
    !m.codeHeap && (rangeOverlap start len m.baseAddr m.sz ||
      rangeOverlap start len m.gotplt m.gotpltsz)

/-- `in_code_heap`. -/
def inCodeHeap (modules : List CodeModule) (start len : Nat) :
    Option CodeModule :=
  modules.find? fun m =>
    m.codeHeap && m.baseAddr ≤ start &&
      (start + len) % 2 ^ 64 ≤ (m.baseAddr + m.sz) % 2 ^ 64

end Overlap

section Calls

/-- `EINVAL` and `ENOMEM`. -/
def einval : Int := 22

@[inherit_doc einval]
def enomem : Int := 12

/--
`rock_mmap`, the code heap that a fixed mapping lies in.  Mappings that only
overlap a code heap are left to the general case.
-/
def fixedInHeap (sandbox : Sandbox) (start len : Nat) (flags : UInt32) :
    Option CodeModule :=
  if start ≠ 0 ∧ mapFixed flags then
    inCodeHeap sandbox.modules start len
  else
    none

/--
`rock_mmap`, the page that a mapping is put at.  The source compares
`page + len` with the limit before it assigns `page`.
-/
def mmapPage (vm : Vmmap) (start len : Nat) (flags : UInt32) : Option Nat :=
  let pages := roundToPage len / pageSize
  if !mapFixed flags then
    let page :=
      if fourGB < start ∨ start = 0 then vmmapFindSpace vm pages
      else vmmapFindMapSpaceAboveHint vm start pages
    if page = 0 then none else some page
  else
    let page := 0
    if fourGB < len ∨ fourGB < page + len then none
    else some (start / pageSize)

/-- `rock_mmap`, for a mapping outside the code heaps. -/
def mmapOutsideHeaps (start len : Nat) (prot flags : UInt32) (fd off : Int)
    (sandbox : Sandbox) : Syscalls (Int × Sandbox) :=
  if protExec prot then
    .stop (.quit "[rock_mmap] maps executable pages!\n")
  else
    match mmapPage sandbox.vm start len flags with
    | none => .done (-enomem, sandbox)
    | some page =>
        let addr := page * pageSize % 2 ^ 64
        if insecureOverlapRdonly sandbox.modules addr len prot then
          .stop (.quit "[rock_mmap] insecure_overlap_rdonly\n")
        else
          mmap addr len prot (flags ||| 0x10) fd off fun result =>
            if result = addr then do
              let vm ← Syscalls.ofRt (vmmapAddWithOverwrite sandbox.vm page
                (roundToPage len / pageSize))
              return (result, { sandbox with vm := vm })
            else
              return (result, sandbox)

/-- `rock_mmap`. -/
def rockMmap (start len : UInt64) (prot flags : UInt32) (fd off : Int)
    (sandbox : Sandbox) : Syscalls (Int × Sandbox) :=
  let start := start.toNat
  let len := len.toNat
  if start % pageSize ≠ 0 then
    .done (-einval, sandbox)
  else if fourGB < start ∧ mapFixed flags then
    .done (-enomem, sandbox)
  else if fourGB < len then
    .done (-enomem, sandbox)
  else
    match fixedInHeap sandbox start len flags with
    | some heap =>
        if protWrite prot && protExec prot then
          .stop (.quit "[rock_map] mapping WX code heap\n")
        else if whichArea heap.codeDataBitmap (start - heap.baseAddr) len ≠
            .data then
          .stop (.quit "[rock_map] mapping existing code\n")
        else
          mprotect start len prot fun rs =>
            .done (if rs = 0 then start else -enomem, sandbox)
    | none => mmapOutsideHeaps start len prot flags fd off sandbox

/-- `rock_mprotect`. -/
def rockMprotect (addr len : UInt64) (prot : UInt32) (sandbox : Sandbox) :
    Syscalls (Int × Sandbox) :=
  let addr := addr.toNat
  let len := len.toNat
  if fourGB < addr ∨ fourGB < len ∨ protExec prot then
    .stop (.quit "[rock_mprotect] mprotect is insecure!\n")
  else if insecureOverlapRdonly sandbox.modules addr len prot then
    .stop (.quit "[rock_mprotect] mprotect overlapps rdonly\n")
  else
    mprotect addr len prot fun rc => .done (rc, sandbox)

/-- `rock_munmap`. -/
def rockMunmap (start len : UInt64) (sandbox : Sandbox) :
    Syscalls (Int × Sandbox) :=
  let start := start.toNat
  let len := len.toNat
  if fourGB < start ∨ fourGB < len ∨ fourGB < (start + len) % 2 ^ 64 then
    .stop (.quit "[rock_munmap] munmap is insecure!\n")
  else
    munmap start len fun rv =>
      if rv = 0 then do
        let vm ← Syscalls.ofRt (vmmapRemove sandbox.vm
          (roundToPage start / pageSize) (roundToPage len / pageSize))
        return (rv, { sandbox with vm := vm })
      else
        return (rv, sandbox)

/--
`rock_mremap`, which ignores its flags and its new address.  The bytes that it
copies go to the mapping it has just made.
-/
def rockMremap (oldAddr oldLen newLen : UInt64) (_flags : UInt32)
    (_newAddr : UInt64) (sandbox : Sandbox) : Syscalls (Int × Sandbox) := do
  -- `PROT_READ | PROT_WRITE` and `MAP_ANONYMOUS | MAP_PRIVATE`
  let (ptr, sandbox) ← rockMmap 0 newLen 3 0x22 (-1) 0 sandbox
  if 0 < ptr then
    let (_, sandbox) ← rockMunmap oldAddr oldLen sandbox
    return (ptr, sandbox)
  else
    return (ptr, sandbox)

/-- A memory call with its arguments. -/
inductive MemoryCall where
  | mmap (start len : UInt64) (prot flags : UInt32) (fd off : Int)
  | mprotect (addr len : UInt64) (prot : UInt32)
  | munmap (start len : UInt64)
  | mremap (oldAddr oldLen newLen : UInt64) (flags : UInt32)
      (newAddr : UInt64)

/-- What a memory call does. -/
def MemoryCall.program (sandbox : Sandbox) :
    MemoryCall → Syscalls (Int × Sandbox)
  | mmap start len prot flags fd off =>
      rockMmap start len prot flags fd off sandbox
  | mprotect addr len prot => rockMprotect addr len prot sandbox
  | munmap start len => rockMunmap start len sandbox
  | mremap oldAddr oldLen newLen flags newAddr =>
      rockMremap oldAddr oldLen newLen flags newAddr sandbox

end Calls

end Mcfi
