import Mcfi.RetGraph
import Mcfi.Tables

namespace Mcfi

open LinkMap ByteMem

/-!
# The runtime state, CFG generation and online patching

The global variables of `runtime.c` and `main.c` that CFG generation and online
patching use, and the runtime calls as functions from state to state.  A call
that does not return yields the fault that stopped the process.

The out-of-sandbox mapping of a module's code is a second view of the same
pages, so `image` holds the code bytes under their in-sandbox addresses.
-/

/-- A thread control block, as far as `safe` and `update_thesc` read it. -/
structure Tcb where
  self : Nat
  remove : Bool
  insyscall : Bool
  sandboxEscape : Nat
  deriving DecidableEq

/-- The offset of an aligned word of the table region. -/
structure WordAddr where
  addr : Nat
  aligned : addr % 8 = 0
  deriving DecidableEq

/-- The global variables of the runtime. -/
structure Runtime where
  modules : List CodeModule
  table : ByteMem
  image : ByteMem
  version : Nat
  versionSpace : Nat
  compatMode : Bool
  cfggened : Bool
  fatsInCode : LinkMap Name Nat
  vmtd : LinkMap Name Nat
  vtabletaken : KeySet Name
  patchCompensate : KeySet WordAddr
  patchedRa : KeySet Nat
  bidSlot : Nat
  icjTarget : OrdDict Name Nat
  icjTargetRet : OrdDict Name Nat
  retName : OrdDict Nat Name
  retOffset : OrdDict Nat Nat
  tcbs : List Tcb
  threadEscapeMap : OrdDict Nat Nat

/-- `BID_SLOT_START`. -/
def bidSlotStart : Nat := 0x11000

/-- `X64ABIBASE`, the address of the first page that a module can have. -/
def x64AbiBase : Nat := 0x400000

/-- The state before anything is loaded; the table region is fresh memory. -/
def Runtime.boot : Runtime where
  modules := []
  table := fun _ => 0
  image := fun _ => 0
  version := 1
  versionSpace := 0
  compatMode := false
  cfggened := false
  fatsInCode := ∅
  vmtd := ∅
  vtabletaken := ∅
  patchCompensate := ∅
  patchedRa := ∅
  bidSlot := bidSlotStart
  icjTarget := ∅
  icjTargetRet := ∅
  retName := ∅
  retOffset := ∅
  tcbs := []
  threadEscapeMap := ∅

section Safety

/-- `safe`. -/
def safe (threadEscapeMap : OrdDict Nat Nat) : List Tcb → Rt Bool
  | [] => return true
  | tcb :: rest =>
      if tcb.remove then
        safe threadEscapeMap rest
      else
        match dictFind threadEscapeMap tcb.self with
        | none => .error (.check "safe")
        | some escapes =>
            if !tcb.insyscall && tcb.sandboxEscape == escapes then
              return false
            else
              safe threadEscapeMap rest

/-- `update_thesc`. -/
def updateThesc (tcbs : List Tcb) (threadEscapeMap : OrdDict Nat Nat) :
    Rt (OrdDict Nat Nat) :=
  tcbs.foldlM (fun map tcb =>
    if tcb.remove then
      return map
    else
      match dictFind map tcb.self with
      | none => .error (.check "update_thesc")
      | some _ => return map.modify tcb.self fun _ => tcb.sandboxEscape)
    threadEscapeMap

/-- `VERSION_SPACE_MAX`. -/
def versionSpaceMax : Nat := 252047376

/--
`gen_cfg`, the handling of `version_space`, an unsigned int.  When the space is
used up the source waits until `safe` answers true; with the threads as they
stand the wait ends at once or not at all.
-/
def nextVersionSpace (versionSpace : Nat) (isSafe : Rt Bool) : Rt Nat := do
  let grown := (versionSpace + 1) % 2 ^ 32
  let safeNow ← isSafe
  if grown < versionSpaceMax then
    return if safeNow then 0 else grown
  else if safeNow then
    return 0
  else
    .error (.diverged "gen_cfg")

end Safety

section Activation

/-- `g_dtor`: `dict_dtor` removes every entry, whatever was in the graph. -/
def gDtor {α β : Type} (_ : LinkMap α β) : LinkMap α β :=
  ∅

/-- `ADD` of `compute_fic`, and the loop body of `compute_tc_vmtd`. -/
def addAliases {ν : Type} (value : ν) (fats : OrdDict Name ν)
    (entry : Name × KeySet Name) : Rt (OrdDict Name ν) :=
  if dictIn fats entry.1 then
    entry.2.keys.foldlM (fun fats key => dictAdd fats key value) fats
  else
    return fats

/-- `compute_fic`. -/
def computeFic (fatsInCode : LinkMap Name Nat) (fatsInData : KeySet Name)
    (aliasesTc : LinkMap Name Name) : Rt (LinkMap Name Nat × KeySet Name) := do
  let (fatsInCode, fatsInData) ← aliasesTc.entries.foldlM
    (fun state entry => do
      let fatsInCode ← addAliases ∅ state.1 entry
      let fatsInData ← addAliases () state.2 entry
      return (fatsInCode, fatsInData)) (fatsInCode, fatsInData)
  return (fatsInCode.filterKeys fun key => !dictIn fatsInData key, fatsInData)

/-- `get_all_vmtd`. -/
def getAllVmtd (vtabletaken definedCtors : KeySet Name)
    (vtable : OrdDict Name (List Name)) : LinkMap Name Nat :=
  vtable.entries.foldl (fun vmtd entry =>
    if !dictIn vtabletaken entry.1 && dictIn definedCtors entry.1 then
      entry.2.foldl (fun vmtd name => gAddVertexOf vmtd name) vmtd
    else
      vmtd) ∅
where
  /-- Add a method that is not there yet. -/
  gAddVertexOf (vmtd : LinkMap Name Nat) (name : Name) : LinkMap Name Nat :=
    vmtd.insertNew name ∅

/-- `compute_tc_vmtd`. -/
def computeTcVmtd (modules : List CodeModule)
    (vtabletaken definedCtors : KeySet Name) (aliasesTc : LinkMap Name Name) :
    Rt (LinkMap Name Nat) :=
  aliasesTc.entries.foldlM (addAliases ∅)
    (modules.foldl (fun vmtd codeModule =>
      mergeDicts vmtd (getAllVmtd vtabletaken definedCtors codeModule.vtable))
      ∅)

end Activation

/-- What `gen_cfg` has computed when it starts to fill the tables. -/
structure CfgData where
  callgraph : LinkMap Nat Nat
  retgraph : LinkMap Nat Nat
  fatsInCode : LinkMap Name Nat
  vmtd : LinkMap Name Nat
  tables : IdTables

/--
`gen_cfg`, up to the generation of the ids.  The alias graph is destroyed before
its closure is taken for the second time.
-/
def computeCfg (attrs : UInt8) (runtime : Runtime) : Rt CfgData := do
  let info := mergeMcfiMetainfo runtime.modules
  let (callgraph, allFuncs) ← buildCallgraph attrs info
  let aliasesTc ← gTransitiveClosure (gDtor info.aliases)
  let (fatsInCode, _) ← computeFic (info.fatsInCode.mapVal fun _ => ∅)
    info.fatsInData aliasesTc
  let vmtd ← computeTcVmtd runtime.modules runtime.vtabletaken
    info.definedCtors aliasesTc
  let lcg ← gGetLcc callgraph
  let retgraph := buildRetgraph callgraph allFuncs runtime.modules
  let lrt ← gGetLcc retgraph
  let tables ← genMcfiId runtime.compatMode lcg lrt runtime.version
  return {
    callgraph := callgraph
    retgraph := retgraph
    fatsInCode := fatsInCode
    vmtd := vmtd
    tables := tables }

/-- `*entry |= 1`. -/
def setBit0 (table : ByteMem) (addr : Nat) : ByteMem :=
  table.store64 addr (table.load64 addr ||| 1)

/-- The table passes of `gen_cfg`, in their order. -/
def fillTables (cfg : CfgData) (runtime : Runtime) : TableState :=
  runStores (tableUpdate cfg.tables runtime.modules)
    ⟨runtime.table, cfg.fatsInCode, cfg.vmtd⟩

/--
`gen_cfg`.  The first argument is what the uninitialised attribute byte of
`build_callgraph` happens to hold.
-/
def genCfg (attrs : UInt8) (runtime : Runtime) : Rt Runtime := do
  let cfg ← computeCfg attrs runtime
  let versionSpace ← nextVersionSpace runtime.versionSpace
    (safe runtime.threadEscapeMap runtime.tcbs)
  let filled := fillTables cfg runtime
  -- the first generation activates what was patched before it
  let table :=
    if runtime.cfggened then filled.table
    else runtime.patchCompensate.keys.foldl
      (fun table entry => setBit0 table entry.addr) filled.table
  let threadEscapeMap ← updateThesc runtime.tcbs runtime.threadEscapeMap
  return { runtime with
    modules := runtime.modules.map fun codeModule =>
      { codeModule with cfggened := true }
    table := table
    version := cfg.tables.version
    versionSpace := versionSpace
    cfggened := true
    fatsInCode := filled.fatsInCode
    vmtd := filled.vmtd
    patchCompensate := if runtime.cfggened then runtime.patchCompensate else ∅
    threadEscapeMap := threadEscapeMap }

section Modules

/-- The loop that finds the module whose segment holds an address. -/
def findModule (modules : List CodeModule) (addr : Nat) : Option CodeModule :=
  modules.find? fun codeModule => codeModule.Holds addr

/-- Change the module that `findModule` finds. -/
def modifyModule (modules : List CodeModule) (addr : Nat)
    (change : CodeModule → CodeModule) : List CodeModule :=
  match modules with
  | [] => []
  | codeModule :: rest =>
      if codeModule.Holds addr then
        change codeModule :: rest
      else
        codeModule :: modifyModule rest addr change

end Modules

/-- `take_addr_and_gen_cfg`. -/
def takeAddrAndGenCfg (attrs : UInt8) (funcAddr : Nat) (runtime : Runtime) :
    Rt Runtime := do
  let (modules, names) ← locate runtime.modules funcAddr
  match names with
  | none =>
      .error (.quit "[take_addr_and_gen_cfg] cannot find the functions\n")
  | some _ => genCfg attrs { runtime with modules := modules }
where
  /--
  The search loop.  It overwrites `func_addr` with its offset in each module
  that holds it, so a later module is searched for the offset.
  -/
  locate (modules : List CodeModule) (funcAddr : Nat) :
      Rt (List CodeModule × Option (KeySet Name)) :=
    match modules with
    | [] => return ([], none)
    | codeModule :: rest =>
        if codeModule.Holds funcAddr then
          match dictFind codeModule.dynfuncs
              (funcAddr - codeModule.baseAddr) with
          | some names => do
              let fats ← names.keys.foldlM
                (fun fats name => dictAdd fats name ()) codeModule.fats
              return ({ codeModule with fats := fats } :: rest, some names)
          | none => do
              let (later, found) ←
                locate rest (funcAddr - codeModule.baseAddr)
              return (codeModule :: later, found)
        else do
          let (later, found) ← locate rest funcAddr
          return (codeModule :: later, found)

section Patching

/-- Set bit 0 of a Tary word that does not have it. -/
def activate (table : ByteMem) (addr : Nat) : ByteMem :=
  if table.load64 addr % 2 = 0 then setBit0 table addr else table

/-- `fivebytenop`, as the upper five bytes of a little-endian word. -/
def fiveByteNop : Nat := 0x0000441F0F000000

/-- `patch_at`. -/
def patchAt (patchpoint : Nat) (runtime : Runtime) : Rt Runtime := do
  match findModule runtime.modules patchpoint with
  | none => .error (.check "patch_at")
  | some codeModule =>
      check "patch_at" (patchpoint % 8 == 0)
      let offset := patchpoint - codeModule.baseAddr
      match dictFind codeModule.atFunc offset with
      | none => .error (.check "patch_at")
      | some name =>
          let runtime ←
            match dictFind runtime.fatsInCode name with
            | none => pure runtime
            | some atsites => do
                check "patch_at" (atsites.keys.isEmpty || runtime.cfggened)
                pure { runtime with
                  table := atsites.keys.foldl activate runtime.table
                  fatsInCode := gDelVertex runtime.fatsInCode name }
          -- the site loses its call: three old bytes and a five-byte nop
          let site := patchpoint - 8
          return { runtime with
            image := runtime.image.store64 site
              (runtime.image.load site 3 + fiveByteNop) }

/-- `patch_entry`, the class that a constructor builds, with its methods. -/
def ctorMethods (codeModule : CodeModule) (offset : Nat) :
    Option (Name × List Name) :=
  match dictFind codeModule.ctor offset with
  | none => none
  | some className =>
      (dictFind codeModule.vtable className).map fun names =>
        (className, names)

/-- `patch_entry`. -/
def patchEntry (patchpoint : Nat) (runtime : Runtime) : Rt Runtime := do
  match findModule runtime.modules patchpoint with
  | none => .error (.check "patch_entry")
  | some codeModule =>
      check "patch_entry" (patchpoint % 8 == 0)
      let offset := patchpoint - codeModule.baseAddr
      check "patch_entry" runtime.cfggened
      let methods := ctorMethods codeModule offset
      let table :=
        match methods with
        | none => runtime.table
        | some (_, names) =>
            names.foldl (fun table name =>
              (runtime.vmtd.targets name).foldl activate table) runtime.table
      let vtable :=
        match methods with
        | none => codeModule.vtable
        | some (className, _) => dictDel codeModule.vtable className
      let table := (codeModule.flp.targets offset).foldl
        (fun table key =>
          table.storeByte (codeModule.baseAddr + key) (UInt8.ofNat LPV)) table
      match dictFind codeModule.funcOrig offset with
      | none => .error (.check "patch_entry")
      | some original =>
          return { runtime with
            modules := modifyModule runtime.modules patchpoint fun found =>
              { found with
                vtable := vtable
                flp := gDelVertex found.flp offset }
            table := table
            image := runtime.image.store64 patchpoint original }

/-- The next multiple of eight. -/
def roundUp8 (value : Nat) : WordAddr where
  addr := (value + 7) / 8 * 8
  aligned := Nat.mul_mod_left _ 8

/-- `patch_call`. -/
def patchCall (patchpoint : Nat) (runtime : Runtime) : Rt Runtime := do
  match findModule runtime.modules patchpoint with
  | none => .error (.check "patch_call")
  | some codeModule =>
      check "patch_call" (patchpoint % 8 == 0 ||
        (patchpoint + 3) % 8 == 0 || (patchpoint + 2) % 8 == 0)
      if dictIn runtime.patchedRa patchpoint then
        return runtime
      else
        let patchedRa ← dictAdd runtime.patchedRa patchpoint ()
        let target := roundUp8 patchpoint
        match dictFind codeModule.raOrig
            (target.addr - codeModule.baseAddr) with
        | none => .error (.check "patch_call")
        | some original => do
            let runtime ←
              if runtime.cfggened then
                pure { runtime with
                  table := setBit0 runtime.table target.addr }
              else do
                let patchCompensate ←
                  dictAdd runtime.patchCompensate target ()
                pure { runtime with patchCompensate := patchCompensate }
            return { runtime with
              patchedRa := patchedRa
              image := runtime.image.store64 (target.addr - 8) original }

end Patching

/-- `alloc_bid_slot`, called once for each symbol of a list. -/
def assignBidSlots (bidSlot : Nat) (icfsyms : List Symbol) : List Symbol :=
  icfsyms.mapIdx fun index icfsym =>
    { icfsym with offset := (bidSlot + 8 * index) % 2 ^ 32 }

/--
`load_elf`, for a module that `load_mcfi_metadata` has parsed and the memory
pager has placed.  The branches get fresh Bary slots, the fields that only
generation or a code heap set are zero, and an uninstrumented module turns
compatibility mode on.
-/
def loadElf (parsed : CodeModule) (runtime : Runtime) : Runtime :=
  { runtime with
    modules := runtime.modules ++
      [{ parsed with
          icfsyms := assignBidSlots runtime.bidSlot parsed.icfsyms
          fats := mergeDicts (mergeDicts ∅ parsed.fatsInCode) parsed.fatsInData
          cfggened := false
          activated := false
          codeHeap := false
          codeDataBitmap := fun _ => 0
          bidSlotInCodeheap := ∅
          verifier := none }]
    compatMode := runtime.compatMode || !parsed.instrumented
    bidSlot := (runtime.bidSlot + 8 * parsed.icfsyms.length) % 2 ^ 32 }

end Mcfi
