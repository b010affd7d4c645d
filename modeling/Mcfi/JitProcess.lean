import Mcfi.AddressSpace

namespace Mcfi

open ByteMem

/-!
# Code heaps seen from both sides

The memory of a code heap is mapped twice: inside the sandbox, with a protection
that the program changes through the memory calls, and outside, where the runtime
writes.  `code_heap_fill` writes through the outer mapping and verifies what it
reads through the inner one, so the two are kept apart here, and stores of the
program go through its pages.
-/

/--
The state of a process with code heaps.  `osb` is the memory of the heaps by
their in-sandbox addresses, `other` all other memory, and `verified` remembers
for each address the byte that was verified last.
-/
structure JitProcess where
  space : AddressSpace
  osb : ByteMem
  other : Nat → ByteMem
  table : ByteMem
  verified : ByteMem

namespace JitProcess

/-- The modules of the process. -/
def modules (process : JitProcess) : List CodeModule :=
  process.space.sandbox.modules

/-- Replace a module. -/
def setModule (process : JitProcess) (index : Nat) (m : CodeModule) :
    JitProcess :=
  { process with space := { process.space with
      sandbox := { process.space.sandbox with
        modules := process.modules.set index m } } }

/-- The byte of a frame behind an address. -/
def content (process : JitProcess) (frame : Frame) (addr : Nat) : UInt8 :=
  match frame with
  | .own page => process.osb (page * pageSize + addr % pageSize)
  | .other id => process.other id (addr % pageSize)

/-- The byte that can be read at an address. -/
def byte? (process : JitProcess) (addr : Nat) : Option UInt8 :=
  match process.space.pages (addr / pageSize) with
  | some page =>
      if page.prot &&& 7 != 0 then some (process.content page.frame addr)
      else none
  | none => none

/-- Read some bytes inside the sandbox. -/
def readBytes (process : JitProcess) (addr len : Nat) : Rt (List UInt8) :=
  match (List.range len).mapM fun k => process.byte? (addr + k) with
  | some bytes => .ok bytes
  | none => .error (.pageFault "code_heap_fill")

/-- A store of the program, through one of its pages. -/
def storeThrough (process : JitProcess) (frame : Frame) (addr : Nat)
    (byte : UInt8) : JitProcess :=
  match frame with
  | .own page =>
      { process with
        osb := process.osb.storeByte (page * pageSize + addr % pageSize) byte }
  | .other id =>
      { process with
        other := fun frame =>
          if frame = id then
            (process.other id).storeByte (addr % pageSize) byte
          else
            process.other frame }

end JitProcess

section Filling

/-- `code_heap_fill`, verifying and marking code that lies in the heap. -/
def installIn (index : Nat) (codeModule : CodeModule) (dst len : Nat)
    (process : JitProcess) : Rt JitProcess := do
  check "code_heap_fill" (dst % 8 == 0)
  match codeModule.verifier with
  | none => .error (.nullDeref "verify_jitted_code")
  | some v =>
      let bytes ← process.readBytes dst len
      let tary ← verifyJittedCode v process.table codeModule bytes dst dst true
      return { process with
        table := process.table.storeBytes dst tary
        verified := process.verified.storeBytes dst bytes }.setModule index
          { codeModule with
            codeDataBitmap := setCode codeModule.codeDataBitmap
              (dst - codeModule.baseAddr) len }

/-- `code_heap_fill`, replacing code through the outer mapping. -/
def replaceIn (bufferAddr : Nat) (codeModule : CodeModule) (area : Area)
    (dst : Nat) (src : List UInt8) (process : JitProcess) : Rt JitProcess := do
  if area ≠ .code then
    return process
  else if process.table dst ≠ UInt8.ofNat DCV then
    .error (.quit
      "[code_heap_fill replace] the patch does not start at an instruction boudary\n")
  else
    match codeModule.verifier with
    | none => .error (.nullDeref "verify_jitted_code")
    | some v =>
        let follows := whichArea codeModule.codeDataBitmap
          (dst - codeModule.baseAddr + src.length) 1
        let tary ← verifyJittedCode v process.table codeModule src bufferAddr
          dst (follows ≠ .code)
        return { process with
          table := process.table.storeBytes dst tary
          osb := process.osb.storeBytes dst src
          verified := process.verified.storeBytes dst src }

/-- `code_heap_fill`, for code. -/
def fillCodeIn (bufferAddr index : Nat) (codeModule : CodeModule) (dst : Nat)
    (src : List UInt8) (flags : FillFlags) (process : JitProcess) :
    Rt JitProcess := do
  let area := whichArea codeModule.codeDataBitmap
    (dst - codeModule.baseAddr) src.length
  if flags.copy then
    check "code_heap_fill" (area == .data)
    installIn index codeModule dst src.length
      { process with osb := process.osb.storeBytes dst src }
  else if flags.verify then
    installIn index codeModule dst src.length process
  else if flags.replace then
    replaceIn bufferAddr codeModule area dst src process
  else
    return process

/-- `code_heap_fill`, on both mappings of the heap. -/
def codeHeapFillIn (bufferAddr : Nat) (handle : Option Nat) (dst : Nat)
    (src : List UInt8) (extra : Nat) (process : JitProcess) :
    Rt JitProcess := do
  let (index, codeModule) ← getCodeHeap handle process.modules
  checkFill codeModule dst src.length
  let flags := fillFlags extra
  if flags.code then
    fillCodeIn bufferAddr index codeModule dst src flags process
  else
    match whichArea codeModule.codeDataBitmap
        (dst - codeModule.baseAddr) src.length with
    | .invalid =>
        .error (.quit "[code_heap_fill data] crossing boundary of code and data\n")
    | .code =>
        match backToBoundary process.table
            (dst - codeModule.baseAddr) dst with
        | none => .error (.quit "[code_heap_fill] illegal dst\n")
        | some start => do
            let before ← process.readBytes start (dst - start)
            let patched := before ++ src
            checkFill codeModule start patched.length
            fillCodeIn bufferAddr index codeModule start patched
              (fillFlags 17) process
    | .data =>
        return { process with osb := process.osb.storeBytes dst src }

end Filling

section Steps

/-- What the process or its attacker may do next. -/
inductive JitAction where
  | fill (bufferAddr : Nat) (handle : Option Nat) (dst : Nat)
      (src : List UInt8) (extra : Nat)
  | mmap (start len : UInt64) (prot flags : UInt32) (fd off : Int)
  | mprotect (addr len : UInt64) (prot : UInt32)
  | munmap (start len : UInt64)
  | store (addr : Nat) (byte : UInt8)

/-- The memory call of an action. -/
def JitAction.memoryCall : JitAction → Option MemoryCall
  | mmap start len prot flags fd off => some (.mmap start len prot flags fd off)
  | mprotect addr len prot => some (.mprotect addr len prot)
  | munmap start len => some (.munmap start len)
  | _ => none

/--
One step.  A memory call leaves the heaps' memory alone and may bring in other
memory; a store needs a page that is writable at that moment.
-/
inductive JitStep (kernel : Kernel) (before : JitProcess) :
    JitAction → JitProcess → Prop where
  | fill
      {bufferAddr : Nat} {handle : Option Nat} {dst : Nat} {src : List UInt8}
      {extra : Nat} {after : JitProcess}
      (returned : codeHeapFillIn bufferAddr handle dst src extra before =
        .ok after) :
      JitStep kernel before (.fill bufferAddr handle dst src extra) after
  | memory
      {action : JitAction} {call : MemoryCall} {value : Int}
      {sandbox : Sandbox} {pages : PageMap} (other : Nat → ByteMem)
      (named : action.memoryCall = some call)
      (runs : (call.program before.space.sandbox).Runs kernel
        before.space.pages (value, sandbox) pages) :
      JitStep kernel before action
        { before with space := ⟨sandbox, pages⟩, other := other }
  | store
      {addr : Nat} {byte : UInt8} {page : Page}
      (mapped : before.space.pages (addr / pageSize) = some page)
      (writable : protWrite page.prot = true) :
      JitStep kernel before (.store addr byte)
        (before.storeThrough page.frame addr byte)

/-- The processes that steps of a kind reach. -/
inductive JitRun (kernel : Kernel) (Allowed : JitProcess → JitAction → Prop)
    (start : JitProcess) : JitProcess → Prop where
  | start : JitRun kernel Allowed start start
  | step
      {before after : JitProcess} {action : JitAction}
      (run : JitRun kernel Allowed start before)
      (allowed : Allowed before action)
      (step : JitStep kernel before action after) :
      JitRun kernel Allowed start after

end Steps

end Mcfi
