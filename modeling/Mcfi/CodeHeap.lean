import Mcfi.Runtime

namespace Mcfi

open LinkMap ByteMem

/-!
# Code heaps

A code heap is a code module that generated code is installed in.  This module
follows the calls that create a heap, verify and install code in it, and
register its symbols and branches with the tables.

The verifier is a finite automaton that the program hands over together with the
heap; the tables only learn from it where instructions start.
-/

section Areas

/-- `count_bits`. -/
def countBits (bmp : ByteMem) (base len : Nat) : Nat :=
  ((List.range len).filter fun k =>
    (bmp ((base + k) / 8)).toNat / 2 ^ ((base + k) % 8) % 2 = 1).length

/-- The number of one bits of a 64-bit word, `__builtin_popcountl`. -/
def popcount (word : Nat) : Nat :=
  ((List.range 64).filter fun k => word / 2 ^ k % 2 = 1).length

/-- `ROCK_CODE`, `ROCK_DATA` and `ROCK_INVALID`. -/
inductive Area where
  | code
  | data
  | invalid
  deriving Repr, DecidableEq

/--
`which_area`.  The loop over whole words of the source reads its first word
every time round.
-/
def whichArea (cdbmp : ByteMem) (base len : Nat) : Area :=
  let bitlen := len
  let bitsum :=
    if len < 32 then
      countBits cdbmp base len
    else
      let head := if base % 8 ≠ 0 then 8 - base % 8 else 0
      let headSum := if base % 8 ≠ 0 then countBits cdbmp base head else 0
      let base := base + head
      let len := len - head
      let trailLen := len % 64
      let trailSum :=
        if trailLen ≠ 0 then countBits cdbmp (base + (len - trailLen)) trailLen
        else 0
      headSum + trailSum + len / 64 * popcount (cdbmp.load64 (base / 8))
  if bitsum = bitlen then .code else if bitsum = 0 then .data else .invalid

/-- Set some bits of one byte. -/
def orByte (bmp : ByteMem) (addr mask : Nat) : ByteMem :=
  bmp.storeByte addr (bmp addr ||| UInt8.ofNat mask)

/--
`set_code`.  The partial first byte of a long range is stored at the byte index
`base_align`, as the source has it.
-/
def setCode (cdbmp : ByteMem) (base len : Nat) : ByteMem :=
  if len < 16 then
    (List.range len).foldl (fun bmp k =>
      orByte bmp ((base + k) / 8) (2 ^ ((base + k) % 8))) cdbmp
  else
    let shift := base % 8
    let head := if shift ≠ 0 then 8 - shift else 0
    let cdbmp :=
      if shift ≠ 0 then
        orByte cdbmp (base - shift) (0xff / 2 ^ shift * 2 ^ shift)
      else
        cdbmp
    let base := base + head
    let len := len - head
    let trailLen := len % 8
    let cdbmp :=
      if trailLen ≠ 0 then
        orByte cdbmp ((base + (len - trailLen)) / 8) (2 ^ trailLen - 1)
      else
        cdbmp
    (List.range (len / 8)).foldl (fun bmp k =>
      bmp.storeByte (base / 8 + k) 0xff) cdbmp

end Areas

section Verification

variable (v : Verifier)

/-- `dfa_lookup`. -/
def dfaLookup (state : UInt16) (byte : UInt8) : UInt16 :=
  v.dfa (state.toNat * 256 + byte.toNat)

/-- `accepts`. -/
def accepts (state : UInt16) : Bool :=
  state ≤ v.maxAccept && 0 < state

/-- `accepts_others`. -/
def acceptsOthers (state : UInt16) : Bool :=
  v.maxAccept < state && state < v.start

/-- `terminator`. -/
def terminates (state : UInt16) : Bool :=
  v.terminator == state || v.dcall == state || v.icall == state ||
    v.ijmp == state || v.jmpRel1 == state || v.jmpRel4 == state ||
    v.mcficall == state || v.mcficheck == state || v.mcfiret == state

/--
`verify`: the return value, and the end state with the number of bytes up to the
end pointer when these were set.
-/
def verify (state : UInt16) (position : Nat)
    (found : Option (UInt16 × Nat)) :
    List UInt8 → Int × Option (UInt16 × Nat)
  | [] => (1, found)
  | byte :: rest =>
      let state := dfaLookup v state byte
      if v.start ≤ state then
        verify state (position + 1) found rest
      else if accepts v state then
        match rest with
        | [] => (0, some (state, position + 1))
        | next :: later =>
            let nextState := dfaLookup v state next
            -- one state of lookahead, when at least two bytes are left
            if !later.isEmpty && nextState != 0 then
              (0, (verify nextState (position + 2)
                (some (state, position + 1)) later).2)
            else
              (0, some (state, position + 1))
      else if acceptsOthers v state then
        (0, some (state, position + 1))
      else
        (-1, found)

/-- A two's-complement number of some bytes. -/
def signed (bits value : Nat) : Int :=
  if value < 2 ^ (bits - 1) then value else (value : Int) - 2 ^ bits

/-- The target of the direct branch that ends at an offset of the buffer. -/
def branchTarget (bytes : List UInt8) (installAddr stop width : Nat) : Int :=
  let field := (bytes.drop (stop - width)).take width
  let value := field.foldr (fun byte acc => byte.toNat + 256 * acc) 0
  installAddr + stop + signed (8 * width) value

/--
What the scan of `verify_jitted_code` has found so far.  The state is
uninitialised until the first instruction, and zero here.
-/
structure JitScan where
  boundaries : List Nat
  jmpTargets : List Int
  state : UInt16

/--
`verify_jitted_code`, the loop over the instructions; each round consumes at
least one byte, so the length of the buffer bounds the rounds.
-/
def scanJitted (codeModule : CodeModule) (bytes : List UInt8)
    (bufferAddr installAddr : Nat) :
    Nat → Nat → JitScan → Rt JitScan
  | fuel, ptr, scan =>
      if bytes.length ≤ ptr then
        .ok scan
      else
        match fuel with
        | 0 => .error (.diverged "verify_jitted_code")
        | fuel + 1 =>
            match verify v v.start ptr none (bytes.drop ptr) with
            | (0, some (state, stop)) => do
                let direct :=
                  if v.jmpRel1 == state || v.jccRel1 == state then some 1
                  else if v.jmpRel4 == state || v.jccRel4 == state ||
                    v.dcall == state then some 4
                  else none
                let scan ←
                  if v.maxAccept < state then
                    match direct with
                    | some width => do
                        let target := branchTarget bytes installAddr stop width
                        check "verify_jitted_code"
                          (codeModule.baseAddr ≤ target &&
                            target < codeModule.baseAddr + codeModule.sz)
                        pure { scan with
                          jmpTargets := scan.jmpTargets ++ [target] }
                    | none =>
                        if v.mcficall == state &&
                            (bufferAddr + stop) % 8 ≠ 0 then
                          .error (.quit "[verify] mcficall not aligned\n")
                        else
                          pure scan
                  else
                    pure scan
                scanJitted codeModule bytes bufferAddr installAddr fuel stop
                  { scan with
                    boundaries := scan.boundaries ++ [ptr]
                    state := state }
            | _ => .error (.quit "verify_jitted_code")

/-- The `tary` buffer: `DCV` at the first byte of each instruction. -/
def boundaryBytes (length : Nat) (boundaries : List Nat) : List UInt8 :=
  (List.range length).map fun k =>
    if k ∈ boundaries then UInt8.ofNat DCV else 0

/-- `verify_jitted_code`, returning the `tary` buffer it fills. -/
def verifyJittedCode (table : ByteMem) (codeModule : CodeModule)
    (bytes : List UInt8) (bufferAddr installAddr : Nat)
    (checkTerminate : Bool) : Rt (List UInt8) := do
  let scan ← scanJitted v codeModule bytes bufferAddr installAddr
    bytes.length 0 ⟨[], [], 0⟩
  if checkTerminate && !terminates v scan.state then
    .error (.quit "[verify jitted code] the code does not end with a safe instruction")
  else
    let tary := boundaryBytes bytes.length scan.boundaries
    -- each target is a boundary, in the new code or in the table; targets and
    -- the start of the code are cut to 32 bits
    let installAddr := installAddr % 2 ^ 32
    let good (target : Int) : Bool :=
      let target := target.toNat % 2 ^ 32
      if codeModule.Holds target then
        if target < installAddr ∨ installAddr + bytes.length ≤ target then
          table target == UInt8.ofNat DCV
        else
          tary.getD (target - installAddr) 0 == UInt8.ofNat DCV
      else
        false
    if scan.jmpTargets.all good then
      return tary
    else
      .error (.quit "jmp_targets wrong")

end Verification

section Heaps

/-- `FourGB`. -/
def fourGB : Nat := 0x100000000

/--
`create_code_heap`, for the page number with which `VmmapFindSpace` answers.
The new module stays uninstrumented, and the handle stored through `ph` is its
position in the list.
-/
def createCodeHeap (ph page size : Nat) (verifier : Option Verifier)
    (runtime : Runtime) : Rt Runtime :=
  if verifier.isNone then
    .error (.quit "[rock_create_code_heap] illegal verifier\n")
  else if ph = 0 ∨ fourGB < ph then
    .error (.quit
      "[rock_create_code_heap] illegal pointer to shadow code heap\n")
  else if page = 0 then
    .error (.quit "[create_code_heap] VmmapFindSpace failed\n")
  else if mapped : 0 < size ∧ size % pageSize = 0 then
    .ok { runtime with
      modules := runtime.modules ++
        [{ allocCodeModule with
            baseAddr := page * pageSize
            sz := size
            activated := true
            codeHeap := true
            verifier := verifier
            baseAligned := Nat.mul_mod_left page pageSize
            sizeAligned := mapped.2 }] }
  else
    -- the kernel refuses an empty mapping; other sizes fail an assertion
    .error (.check "create_parallel_mapping")

/-- `get_code_heap`; a null handle equals the never assigned cached module. -/
def getCodeHeap (handle : Option Nat) (modules : List CodeModule) :
    Rt (Nat × CodeModule) :=
  match handle with
  | none => .error (.nullDeref "get_code_heap")
  | some index =>
      match modules[index]? with
      | some codeModule =>
          if codeModule.codeHeap then .ok (index, codeModule)
          else .error (.quit "[get_code_heap] invalid code module used\n")
      | none => .error (.quit "[get_code_heap] invalid code module used\n")

/-- A handle names a code heap of the list. -/
theorem getCodeHeap_ok
    {handle : Option Nat} {modules : List CodeModule} {index : Nat}
    {heap : CodeModule}
    (returned : getCodeHeap handle modules = .ok (index, heap)) :
    modules[index]? = some heap ∧ heap.codeHeap = true := by
  unfold getCodeHeap at returned
  split at returned
  next => cases returned
  next named =>
    split at returned
    next found located =>
      split at returned
      next isHeap =>
        cases returned
        exact ⟨located, isHeap⟩
      next => cases returned
    next => cases returned

/-- Replace the module a handle names. -/
def Runtime.setModule (runtime : Runtime) (index : Nat)
    (codeModule : CodeModule) : Runtime :=
  { runtime with modules := runtime.modules.set index codeModule }

/-- The bytes of the image from an address on. -/
def readImage (image : ByteMem) (addr len : Nat) : List UInt8 :=
  (List.range len).map fun k => image (addr + k)

/-- The flags of `code_heap_fill`. -/
structure FillFlags where
  code : Bool
  verify : Bool
  copy : Bool
  replace : Bool

/-- `ROCK_CODE`, `ROCK_VERIFY`, `ROCK_COPY` and `ROCK_REPLACE`. -/
def fillFlags (extra : Nat) : FillFlags where
  code := extra.testBit 0
  verify := extra.testBit 2
  copy := extra.testBit 3
  replace := extra.testBit 4

/-- `code_heap_fill`, the check of the destination. -/
def checkFill (codeModule : CodeModule) (dst len : Nat) : Rt Unit :=
  if fourGB ≤ len ∨ dst < codeModule.baseAddr ∨
      codeModule.baseAddr + codeModule.sz < dst + len then
    .error (.quit "[code_heap_fill] illegal dst\n")
  else
    .ok ()

/-- A destination that passes the check lies in the heap. -/
theorem checkFill_ok
    {heap : CodeModule} {dst len : Nat} {result : Unit}
    (fits : checkFill heap dst len = .ok result) :
    heap.baseAddr ≤ dst ∧ dst + len ≤ heap.baseAddr + heap.sz := by
  unfold checkFill at fits
  split at fits
  next => cases fits
  next good => omega

/-- `code_heap_fill`, installing the code that already lies in the heap. -/
def installCode (index : Nat) (codeModule : CodeModule) (dst len : Nat)
    (runtime : Runtime) : Rt Runtime := do
  check "code_heap_fill" (dst % 8 == 0)
  match codeModule.verifier with
  | none => .error (.nullDeref "verify_jitted_code")
  | some v =>
      let tary ← verifyJittedCode v runtime.table codeModule
        (readImage runtime.image dst len) dst dst true
      return { runtime with
        table := runtime.table.storeBytes dst tary
        modules := runtime.modules.set index { codeModule with
          codeDataBitmap := setCode codeModule.codeDataBitmap
            (dst - codeModule.baseAddr) len } }

/--
`code_heap_fill`, replacing code.  `same_internal_boundary` compares a signed
byte with `DCV`, so both of its safe copies are plain copies; the table changes
only when the boundaries do.
-/
def replaceCode (bufferAddr : Nat) (codeModule : CodeModule) (area : Area)
    (dst : Nat) (src : List UInt8) (runtime : Runtime) : Rt Runtime := do
  if area ≠ .code then
    return runtime
  else if runtime.table dst ≠ UInt8.ofNat DCV then
    .error (.quit
      "[code_heap_fill replace] the patch does not start at an instruction boudary\n")
  else
    match codeModule.verifier with
    | none => .error (.nullDeref "verify_jitted_code")
    | some v =>
        let follows := whichArea codeModule.codeDataBitmap
          (dst - codeModule.baseAddr + src.length) 1
        let tary ← verifyJittedCode v runtime.table codeModule src bufferAddr
          dst (follows ≠ .code)
        return { runtime with
          table := runtime.table.storeBytes dst tary
          image := runtime.image.storeBytes dst src }

/-- `code_heap_fill`, for code. -/
def fillCode (bufferAddr index : Nat) (codeModule : CodeModule) (dst : Nat)
    (src : List UInt8) (flags : FillFlags) (runtime : Runtime) :
    Rt Runtime := do
  let area := whichArea codeModule.codeDataBitmap
    (dst - codeModule.baseAddr) src.length
  if flags.copy then
    check "code_heap_fill" (area == .data)
    installCode index codeModule dst src.length
      { runtime with image := runtime.image.storeBytes dst src }
  else if flags.verify then
    installCode index codeModule dst src.length runtime
  else if flags.replace then
    replaceCode bufferAddr codeModule area dst src runtime
  else
    return runtime

/--
`code_heap_fill`, the loop that walks back to the last instruction boundary,
with the distance to the base of the heap.
-/
def backToBoundary (table : ByteMem) : Nat → Nat → Option Nat
  | 0, dst =>
      if table dst = UInt8.ofNat DCV then some dst else none
  | room + 1, dst =>
      if table dst = UInt8.ofNat DCV then some dst
      else backToBoundary table room (dst - 1)

/--
`code_heap_fill`.  The first argument is the address that `malloc` returns for
the buffer of a replacement.
-/
def codeHeapFill (bufferAddr : Nat) (handle : Option Nat) (dst : Nat)
    (src : List UInt8) (extra : Nat) (runtime : Runtime) : Rt Runtime := do
  let (index, codeModule) ← getCodeHeap handle runtime.modules
  checkFill codeModule dst src.length
  let flags := fillFlags extra
  if flags.code then
    fillCode bufferAddr index codeModule dst src flags runtime
  else
    match whichArea codeModule.codeDataBitmap
        (dst - codeModule.baseAddr) src.length with
    | .invalid =>
        .error (.quit "[code_heap_fill data] crossing boundary of code and data\n")
    | .code =>
        match backToBoundary runtime.table
            (dst - codeModule.baseAddr) dst with
        | none => .error (.quit "[code_heap_fill] illegal dst\n")
        | some start => do
            let patched := readImage runtime.image start (dst - start) ++ src
            checkFill codeModule start patched.length
            -- `ROCK_CODE | ROCK_REPLACE`
            fillCode bufferAddr index codeModule start patched
              (fillFlags 17) runtime
    | .data =>
        return { runtime with image := runtime.image.storeBytes dst src }

end Heaps

section Registration

/-- `query_function_name`. -/
def queryFunctionName (modules : List CodeModule) (addr : Nat) : Option Name :=
  match findModule modules addr with
  | none => none
  | some codeModule =>
      (codeModule.funcsyms.find? fun s =>
        s.offset = addr - codeModule.baseAddr).map Symbol.name

/-- `query_rad`. -/
def queryRad (modules : List CodeModule) (name : Name) : Rt Nat :=
  match modules.findSome? fun codeModule =>
      (codeModule.rad.find? fun r => name = r.name).map fun r =>
        r.offset + codeModule.baseAddr with
  | some addr => .ok addr
  | none => .error (.check "query_rad")

/-- `query_function`. -/
def queryFunction (modules : List CodeModule) (name : Name) : Rt Function :=
  match (modules.flatMap CodeModule.functions).find? fun f => name = f.name with
  | some f => .ok f
  | none => .error (.check "query_function")

/-- `query_icfsym`. -/
def queryIcfsym (modules : List CodeModule) (name : Name) : Rt Symbol :=
  match (modules.flatMap CodeModule.icfsyms).find? fun s => name = s.name with
  | some s => .ok s
  | none => .error (.check "query_icfsym")

/-- `alloc_bid_slot`: the slot, and the counter behind it. -/
def allocBidSlot (bidSlot : Nat) : Nat × Nat :=
  (bidSlot, (bidSlot + 8) % 2 ^ 32)

/-- The types of `reg_cfg_metadata` with the arguments each one uses. -/
inductive CfgMetadata where
  | funcSym (newAddr addr : Nat)
  | icj (id : Name) (extra : Nat)
  | icjSym (name : Name) (addr : Nat)
  | rai (name : Name) (addr : Nat)
  | icjSymUnreg (name : Name)
  | funcSymUnreg (addr : Nat)
  | raiUnreg (addr : Nat)
  | ret (addr extra : Nat)

/-- `DL_APPEND(m->funcsyms, funcsym)`. -/
def CodeModule.appendFuncsym (m : CodeModule) (name : Name) (offset : Nat) :
    CodeModule :=
  { m with funcsyms := m.funcsyms ++ [⟨name, offset⟩] }

/-- `DL_APPEND(m->icfsyms, icfsym)`. -/
def CodeModule.appendIcfsym (m : CodeModule) (name : Name) (offset : Nat) :
    CodeModule :=
  { m with icfsyms := m.icfsyms ++ [⟨name, offset⟩] }

/-- `DL_APPEND(m->rai, rai)`. -/
def CodeModule.appendRai (m : CodeModule) (name : Name) (offset : Nat) :
    CodeModule :=
  { m with rai := m.rai ++ [⟨name, offset⟩] }

/-- `HASH_ADD_PTR(m->icfs, id, ic)`. -/
def CodeModule.addIcf (m : CodeModule) (id : Name) (ity : IcfType) :
    CodeModule :=
  { m with icfs := m.icfs ++ [⟨id, ity⟩] }

/-- The four-byte store of a Bary slot into an instruction. -/
def patchBidSlot (image : ByteMem) (addr slot : Nat) : ByteMem :=
  image.store (addr - 4) 4 slot

/-- `reg_cfg_metadata`, case `ROCK_FUNC_SYM`. -/
def regFuncSym (index : Nat) (m : CodeModule) (newAddr addr : Nat)
    (runtime : Runtime) : Rt Runtime :=
  if ¬ m.Holds newAddr ∨ newAddr % 8 ≠ 0 then
    .error (.quit "[rock_reg_cfg_metadata ROCK_FUNC_SYM ] illegal new function sym\n")
  else if fourGB ≤ addr ∨ addr % 8 ≠ 0 then
    .error (.quit "[rock_reg_cfg_metadata ROCK_FUNC_SYM ] illegal function sym\n")
  else
    match queryFunctionName runtime.modules addr with
    | none => .error (.check "reg_cfg_metadata")
    | some name =>
        .ok ({ runtime with
          table := runtime.table.store64 newAddr
            (runtime.table.load64 addr) }.setModule index
          (m.appendFuncsym name (newAddr - m.baseAddr)))

/-- `reg_cfg_metadata`, case `ROCK_RET`: the name and the slot of a return. -/
def lookupRet (extra : Nat) (runtime : Runtime) :
    Rt (Name × Nat × Runtime) :=
  match dictFind runtime.retName extra with
  | some name =>
      match dictFind runtime.retOffset extra with
      | none => .error (.check "reg_cfg_metadata")
      | some slot => .ok (name, slot, runtime)
  | none =>
      match queryFunctionName runtime.modules extra with
      | none => .error (.check "reg_cfg_metadata")
      | some name => do
          let func ← queryFunction runtime.modules name
          match func.returns with
          | [] => .error (.check "reg_cfg_metadata")
          | val :: _ => do
              let retName ← dictAdd runtime.retName extra val
              let sym ← queryIcfsym runtime.modules val
              let slot := sym.offset % 2 ^ 32
              let retOffset ← dictAdd runtime.retOffset extra slot
              return (val, slot,
                { runtime with retName := retName, retOffset := retOffset })

/-- `reg_cfg_metadata`, case `ROCK_RET`. -/
def regRet (index : Nat) (m : CodeModule) (addr extra : Nat)
    (runtime : Runtime) : Rt Runtime := do
  let (name, slot, runtime) ← lookupRet extra runtime
  if ¬ m.Holds addr then
    .error (.quit "[rock_reg_cfg_metadata ROCK_RET] illegal ret bary offset\n")
  else
    return { runtime with
      image := patchBidSlot runtime.image addr slot }.setModule index
        (m.appendIcfsym name slot)

/-- `reg_cfg_metadata`, case `ROCK_ICJ`. -/
def regIcj (index : Nat) (m : CodeModule) (id : Name) (extra : Nat)
    (runtime : Runtime) : Rt Runtime :=
  if m.icfs.any fun ic => ic.id = id then
    .ok runtime
  else
    match queryFunctionName runtime.modules extra with
    | none => .error (.check "reg_cfg_metadata")
    | some name => do
        let f ← queryFunction runtime.modules name
        let icjTarget ← dictAdd runtime.icjTarget id extra
        let ra ← queryRad runtime.modules name
        let icjTargetRet ← dictAdd runtime.icjTargetRet id ra
        return { runtime with
          icjTarget := icjTarget
          icjTargetRet := icjTargetRet }.setModule index
            (m.addIcf id (.normalCall f.type))

/--
`reg_cfg_metadata`, case `ROCK_ICJ_SYM`.  A fresh slot gets a copy of whatever
word the callee's Tary entry holds.
-/
def regIcjSym (index : Nat) (m : CodeModule) (name : Name) (addr : Nat)
    (runtime : Runtime) : Rt Runtime :=
  if ¬ m.Holds addr then
    .error (.quit "[rock_reg_cfg_metadata] illegal icj sym\n")
  else do
    let (slot, slots, runtime) ←
      match dictFind m.bidSlotInCodeheap name with
      | some slot => pure (slot % 2 ^ 32, m.bidSlotInCodeheap, runtime)
      | none => do
          let (slot, bidSlot) := allocBidSlot runtime.bidSlot
          let slots ← dictAdd m.bidSlotInCodeheap name slot
          match dictFind runtime.icjTarget name with
          | none => .error (.check "reg_cfg_metadata")
          | some callee =>
              pure (slot, slots, { runtime with
                bidSlot := bidSlot
                table := runtime.table.store64 slot
                  (runtime.table.load64 callee) })
    return { runtime with
      image := patchBidSlot runtime.image addr slot }.setModule index
        { m.appendIcfsym name slot with bidSlotInCodeheap := slots }

/-- `reg_cfg_metadata`, case `ROCK_RAI`. -/
def regRai (index : Nat) (m : CodeModule) (name : Name) (addr : Nat)
    (runtime : Runtime) : Rt Runtime :=
  if ¬ m.Holds addr ∨ addr % 8 ≠ 0 then
    .error (.quit "[rock_reg_cfg_metadata] illegal rai\n")
  else
    match dictFind runtime.icjTargetRet name with
    | none => .error (.check "reg_cfg_metadata")
    | some ra =>
        .ok ({ runtime with
          table := setBit0 (runtime.table.store64 addr
            (runtime.table.load64 ra)) addr }.setModule index
          (m.appendRai name (addr - m.baseAddr)))

/-- `reg_cfg_metadata`, case `ROCK_RAI_UNREG`. -/
def regRaiUnreg (index : Nat) (m : CodeModule) (addr : Nat)
    (runtime : Runtime) : Rt Runtime :=
  if ¬ m.Holds addr ∨ addr % 8 ≠ 0 then
    .error (.quit "[rock_reg_cfg_metadata] illegal rai unreg\n")
  else
    .ok ({ runtime with table := runtime.table.store64 addr 0 }.setModule index
      { m with rai := m.rai.filter fun s =>
          s.offset ≠ addr - m.baseAddr })

/-- `reg_cfg_metadata`, case `ROCK_FUNC_SYM_UNREG`, which falls through. -/
def regFuncSymUnreg (index : Nat) (m : CodeModule) (addr : Nat)
    (runtime : Runtime) : Rt Runtime :=
  if ¬ m.Holds addr ∨ addr % 8 ≠ 0 then
    .error (.quit "[rock_reg_cfg_metadata ROCK_FUNC_SYM_UNREG] illegal func unreg\n")
  else
    let m := { m with funcsyms := m.funcsyms.filter fun s =>
      s.offset ≠ addr - m.baseAddr }
    regRaiUnreg index m addr { runtime with
      table := runtime.table.store64 addr 0 }

/-- `reg_cfg_metadata`. -/
def regCfgMetadata (handle : Option Nat) (metadata : CfgMetadata)
    (runtime : Runtime) : Rt Runtime := do
  let (index, m) ← getCodeHeap handle runtime.modules
  -- `STATIC_BID_SLOT_END = alloc_bid_slot()`
  let runtime := { runtime with bidSlot := (allocBidSlot runtime.bidSlot).2 }
  match metadata with
  | .funcSym newAddr addr => regFuncSym index m newAddr addr runtime
  | .icj id extra => regIcj index m id extra runtime
  | .icjSym name addr => regIcjSym index m name addr runtime
  | .rai name addr => regRai index m name addr runtime
  | .icjSymUnreg name =>
      return runtime.setModule index
        { m with icfsyms := m.icfsyms.filter fun s => name ≠ s.name }
  | .funcSymUnreg addr => regFuncSymUnreg index m addr runtime
  | .raiUnreg addr => regRaiUnreg index m addr runtime
  | .ret addr extra => regRet index m addr extra runtime

end Registration

end Mcfi
