import Mathlib
import Mcfi.JitCode

namespace Mcfi

open ByteMem LinkMap

/-!
# Patches of registered branches

Registering a return or an indirect branch stores a Bary slot through the second
mapping of the heap, at the registered address less four.  The calls are followed
here with the memory of the runtime around that mapping, and with the state that
is left where they stop.
-/

/-- The heap, with the mapping of its pages that the runtime stores through. -/
structure OsbMapping (m : CodeModule) where
  base : Nat
  -- no mapping has the first page, and none reaches beyond the address space
  mapped : pageSize ≤ base
  fits : base + m.sz ≤ 2 ^ 64

/-- The state of the runtime, with its memory outside of the sandbox. -/
structure Views where
  runtime : Runtime
  outside : ByteMem

section Store

variable (osb : Nat) (m : CodeModule)

/-- `osb_base_addr + (addr - base_addr - 4)`. -/
def patchPlace (addr : Nat) : Nat :=
  (osb + (addr + 2 ^ 64 - m.baseAddr - 4)) % 2 ^ 64

/-- The places of the four bytes that are stored. -/
def patchPlaces (addr : Nat) : List Nat :=
  (List.range 4).map fun k => (patchPlace osb m addr + k) % 2 ^ 64

/-- A byte stored by the runtime: in the pages of the heap, or outside. -/
def Views.storeByte (place : Nat) (byte : UInt8) (views : Views) : Views :=
  if osb ≤ place ∧ place < osb + m.sz then
    { views with
      runtime := { views.runtime with
        image := views.runtime.image.storeByte (m.baseAddr + (place - osb)) byte } }
  else
    { views with outside := views.outside.storeByte place byte }

/-- `*(unsigned int*)(m->osb_base_addr + (addr - m->base_addr - 4)) = bid_slot`. -/
def Views.patch (addr slot : Nat) (views : Views) : Views :=
  (List.range 4).foldl (fun views k =>
    views.storeByte osb m ((patchPlace osb m addr + k) % 2 ^ 64)
      (UInt8.ofNat (slot / 256 ^ k))) views

end Store

/-- A call that keeps the state where it stops. -/
abbrev Stopping := EStateM Fault Views

/-- A part of a call that changes no state. -/
def Stopping.lift {α : Type} (call : Rt α) : Stopping α :=
  match call with
  | .ok value => pure value
  | .error fault => throw fault

section Registration

/-- Replace the module of a handle. -/
def Views.setModule (index : Nat) (m : CodeModule) (views : Views) : Views :=
  { views with runtime := views.runtime.setModule index m }

/-- `reg_cfg_metadata`, case `ROCK_RET`: the name and the slot of a return. -/
def lookupRetStops (extra : Nat) : Stopping (Name × Nat) := do
  let runtime := (← get).runtime
  match dictFind runtime.retName extra with
  | some name =>
      match dictFind runtime.retOffset extra with
      | none => throw (.check "reg_cfg_metadata")
      | some slot => return (name, slot)
  | none =>
      match queryFunctionName runtime.modules extra with
      | none => throw (.check "reg_cfg_metadata")
      | some name => do
          let func ← Stopping.lift (queryFunction runtime.modules name)
          match func.returns with
          | [] => throw (.check "reg_cfg_metadata")
          | val :: _ => do
              let retName ← Stopping.lift (dictAdd runtime.retName extra val)
              modify fun views =>
                { views with runtime := { views.runtime with retName := retName } }
              let sym ← Stopping.lift (queryIcfsym runtime.modules val)
              let slot := sym.offset % 2 ^ 32
              let retOffset ← Stopping.lift (dictAdd runtime.retOffset extra slot)
              modify fun views =>
                { views with runtime := { views.runtime with retOffset := retOffset } }
              return (val, slot)

/-- `reg_cfg_metadata`, case `ROCK_RET`. -/
def regRetStops (osb index : Nat) (m : CodeModule) (addr extra : Nat) :
    Stopping Unit := do
  let (name, slot) ← lookupRetStops extra
  if ¬ m.Holds addr then
    throw (.quit "[rock_reg_cfg_metadata ROCK_RET] illegal ret bary offset\n")
  else
    modify fun views =>
      (views.patch osb m addr slot).setModule index (m.appendIcfsym name slot)

/--
`reg_cfg_metadata`, case `ROCK_ICJ_SYM`: the slot of the branch, and the heap with
the slots that are known now.
-/
def icjSlotStops (index : Nat) (m : CodeModule) (name : Name) :
    Stopping (Nat × CodeModule) := do
  let runtime := (← get).runtime
  match dictFind m.bidSlotInCodeheap name with
  | some slot => return (slot % 2 ^ 32, m)
  | none => do
      let (slot, bidSlot) := allocBidSlot runtime.bidSlot
      modify fun views =>
        { views with runtime := { views.runtime with bidSlot := bidSlot } }
      let slots ← Stopping.lift (dictAdd m.bidSlotInCodeheap name slot)
      let m := { m with bidSlotInCodeheap := slots }
      modify (Views.setModule index m)
      match dictFind runtime.icjTarget name with
      | none => throw (.check "reg_cfg_metadata")
      | some callee => do
          modify fun views =>
            { views with runtime := { views.runtime with
              table := views.runtime.table.store64 slot
                (views.runtime.table.load64 callee) } }
          return (slot, m)

/-- `reg_cfg_metadata`, case `ROCK_ICJ_SYM`. -/
def regIcjSymStops (osb index : Nat) (m : CodeModule) (name : Name) (addr : Nat) :
    Stopping Unit := do
  if ¬ m.Holds addr then
    throw (.quit "[rock_reg_cfg_metadata] illegal icj sym\n")
  else do
    let (slot, heap) ← icjSlotStops index m name
    modify fun views =>
      (views.patch osb m addr slot).setModule index (heap.appendIcfsym name slot)

/-- The registrations that patch a branch. -/
inductive BranchPatch where
  | ret (addr extra : Nat)
  | icjSym (name : Name) (addr : Nat)

/-- The type and the arguments of the call. -/
def BranchPatch.metadata : BranchPatch → CfgMetadata
  | .ret addr extra => .ret addr extra
  | .icjSym name addr => .icjSym name addr

/-- The registered address. -/
def BranchPatch.addr : BranchPatch → Nat
  | .ret addr _ => addr
  | .icjSym _ addr => addr

/-- `reg_cfg_metadata`, for the types that patch a branch. -/
def regBranchPatch (osb : Nat) (handle : Option Nat) (patch : BranchPatch) :
    Stopping Unit := do
  let (index, m) ← Stopping.lift (getCodeHeap handle (← get).runtime.modules)
  -- `STATIC_BID_SLOT_END = alloc_bid_slot()`
  modify fun views =>
    { views with runtime := { views.runtime with
      bidSlot := (allocBidSlot views.runtime.bidSlot).2 } }
  match patch with
  | .ret addr extra => regRetStops osb index m addr extra
  | .icjSym name addr => regIcjSymStops osb index m name addr

end Registration

section Runs

variable {α β : Type}

/-- The result of a call without the state that a fault leaves. -/
def Stopping.outcome : EStateM.Result Fault Views α → Rt (α × Views)
  | .ok value views => .ok (value, views)
  | .error fault _ => .error fault

/-- The state that a call leaves. -/
def Stopping.left : EStateM.Result Fault Views α → Views
  | .ok _ views => views
  | .error _ views => views

theorem Stopping.bind_run (first : Stopping α) (next : α → Stopping β) (views : Views) :
    (first >>= next) views =
      match first views with
      | .ok value later => next value later
      | .error fault later => .error fault later := by
  simp only [bind, EStateM.bind]
  cases first views <;> rfl

private theorem ok_bind {α β : Type} (value : α) (next : α → Rt β) :
    ((.ok value : Rt α) >>= next) = next value :=
  rfl

/--
Looking up a return is as before, and wherever it is stopped only the names and the
slots of returns have changed.
-/
theorem lookupRetStops_run (extra : Nat) (views : Views) :
    Stopping.outcome (lookupRetStops extra views) =
        ((lookupRet extra views.runtime).map fun found =>
          ((found.1, found.2.1), { views with runtime := found.2.2 })) ∧
      ∃ retName retOffset, Stopping.left (lookupRetStops extra views) =
        { views with runtime := { views.runtime with
          retName := retName
          retOffset := retOffset } } := by
  unfold lookupRetStops lookupRet
  rw [Stopping.bind_run]
  simp only [get, getThe, MonadStateOf.get, EStateM.get]
  cases dictFind views.runtime.retName extra with
  | some name =>
      cases dictFind views.runtime.retOffset extra <;> exact ⟨rfl, _, _, rfl⟩
  | none =>
      cases queryFunctionName views.runtime.modules extra with
      | none => exact ⟨rfl, _, _, rfl⟩
      | some name =>
          dsimp only
          cases queryFunction views.runtime.modules name with
          | error => exact ⟨rfl, _, _, rfl⟩
          | ok func =>
              simp only [Stopping.lift, pure_bind, ok_bind]
              cases func.returns with
              | nil => exact ⟨rfl, _, _, rfl⟩
              | cons val rest =>
                  dsimp only
                  cases dictAdd views.runtime.retName extra val with
                  | error => exact ⟨rfl, _, _, rfl⟩
                  | ok retName =>
                      simp only [pure_bind, ok_bind]
                      cases queryIcfsym views.runtime.modules val with
                      | error => exact ⟨rfl, _, _, rfl⟩
                      | ok sym =>
                          simp only [pure_bind, ok_bind]
                          cases dictAdd views.runtime.retOffset extra
                            (sym.offset % 2 ^ 32) <;> exact ⟨rfl, _, _, rfl⟩

/-- The symbols of a module. -/
def CodeModule.symbolLists (m : CodeModule) :
    List Symbol × List Symbol × List Symbol × List Symbol × List Symbol :=
  (m.icfsyms, m.funcsyms, m.rai, m.rad, m.lp)

/-- The code, the memory outside, the tables and the symbols are as before. -/
structure Views.Unchanged (before after : Views) : Prop where
  image : after.runtime.image = before.runtime.image
  outside : after.outside = before.outside
  table : after.runtime.table = before.runtime.table
  symbols : after.runtime.modules.map CodeModule.symbolLists =
    before.runtime.modules.map CodeModule.symbolLists

/--
What `reg_cfg_metadata` leaves of a call that patches a branch.  Where it returns, a
slot is stored, and where it is stopped, nothing has changed.
-/
def PatchesOrKeeps (osb : Nat) (m : CodeModule) (addr : Nat) (before : Views) :
    EStateM.Result Fault Views Unit → Prop
  | .ok () after => m.Holds addr ∧ ∃ slot,
      after.runtime.image = (before.patch osb m addr slot).runtime.image ∧
        after.outside = (before.patch osb m addr slot).outside
  | .error _ after => before.Unchanged after

variable {osb index : Nat} {m : CodeModule}

/-- A byte is stored into the image or into the memory outside. -/
private theorem storeByte_congr
    {first second : Views} (image : first.runtime.image = second.runtime.image)
    (outside : first.outside = second.outside) (place : Nat) (byte : UInt8) :
    (first.storeByte osb m place byte).runtime.image =
        (second.storeByte osb m place byte).runtime.image ∧
      (first.storeByte osb m place byte).outside =
        (second.storeByte osb m place byte).outside := by
  unfold Views.storeByte
  split
  next => exact ⟨by rw [image], outside⟩
  next => exact ⟨image, by rw [outside]⟩

/-- So is a slot, whatever else the state is. -/
theorem patch_congr
    (first second : Views) (image : first.runtime.image = second.runtime.image)
    (outside : first.outside = second.outside) (addr slot : Nat) :
    (first.patch osb m addr slot).runtime.image =
        (second.patch osb m addr slot).runtime.image ∧
      (first.patch osb m addr slot).outside =
        (second.patch osb m addr slot).outside := by
  unfold Views.patch
  generalize List.range 4 = places
  induction places generalizing first second with
  | nil => exact ⟨image, outside⟩
  | cons k rest inductionHypothesis =>
      obtain ⟨sameImage, sameOutside⟩ :=
        storeByte_congr image outside ((patchPlace osb m addr + k) % 2 ^ 64)
          (UInt8.ofNat (slot / 256 ^ k))
      exact inductionHypothesis _ _ sameImage sameOutside

/-- Registering a return. -/
theorem regRetStops_patches (addr extra : Nat) (before : Views) :
    PatchesOrKeeps osb m addr before (regRetStops osb index m addr extra before) := by
  obtain ⟨-, retName, retOffset, leaves⟩ := lookupRetStops_run extra before
  unfold regRetStops
  rw [Stopping.bind_run]
  cases found : lookupRetStops extra before with
  | error fault after =>
      rw [found] at leaves
      cases leaves
      exact ⟨rfl, rfl, rfl, rfl⟩
  | ok value between =>
      obtain ⟨name, slot⟩ := value
      rw [found] at leaves
      cases leaves
      dsimp only
      split
      next => exact ⟨rfl, rfl, rfl, rfl⟩
      next holds =>
        exact ⟨not_not.mp holds, slot, patch_congr { before with
          runtime := { before.runtime with
            retName := retName
            retOffset := retOffset } } before rfl rfl addr slot⟩

/-- Replacing a module by one with its symbols keeps all lists of symbols. -/
private theorem symbolLists_set
    {modules : List CodeModule} {old : CodeModule} (located : modules[index]? = some old)
    (same : m.symbolLists = old.symbolLists) :
    (modules.set index m).map CodeModule.symbolLists =
      modules.map CodeModule.symbolLists := by
  rw [List.map_set, same]
  have there : (modules.map CodeModule.symbolLists)[index]? = some old.symbolLists := by
    rw [List.getElem?_map, located, Option.map_some]
  obtain ⟨inside, here⟩ := List.getElem?_eq_some_iff.mp there
  rw [← here]
  exact List.set_getElem_self inside

/-- The slot of an indirect branch. -/
theorem icjSlotStops_run
    (name : Name) (before : Views) (located : before.runtime.modules[index]? = some m) :
    match icjSlotStops index m name before with
    | .ok _ after => after.runtime.image = before.runtime.image ∧
        after.outside = before.outside
    | .error _ after => before.Unchanged after := by
  unfold icjSlotStops
  rw [Stopping.bind_run]
  simp only [get, getThe, MonadStateOf.get, EStateM.get]
  cases dictFind m.bidSlotInCodeheap name with
  | some slot => exact ⟨rfl, rfl⟩
  | none =>
      dsimp only [allocBidSlot]
      cases dictAdd m.bidSlotInCodeheap name before.runtime.bidSlot with
      | error => exact ⟨rfl, rfl, rfl, rfl⟩
      | ok slots =>
          simp only [Stopping.lift, pure_bind]
          cases dictFind before.runtime.icjTarget name with
          | none => exact ⟨rfl, rfl, rfl, symbolLists_set located rfl⟩
          | some callee => exact ⟨rfl, rfl⟩

/-- Registering an indirect branch. -/
theorem regIcjSymStops_patches
    (name : Name) (addr : Nat) (before : Views)
    (located : before.runtime.modules[index]? = some m) :
    PatchesOrKeeps osb m addr before
      (regIcjSymStops osb index m name addr before) := by
  have run := icjSlotStops_run name before located
  unfold regIcjSymStops
  split
  next => exact ⟨rfl, rfl, rfl, rfl⟩
  next holds =>
    rw [Stopping.bind_run]
    cases found : icjSlotStops index m name before with
    | error fault after =>
        rw [found] at run
        exact run
    | ok value between =>
        obtain ⟨slot, heap⟩ := value
        rw [found] at run
        exact ⟨not_not.mp holds, slot, patch_congr between before run.1 run.2 addr slot⟩

/-- The counter of slots is no part of what a call patches or keeps. -/
private theorem PatchesOrKeeps.of_bidSlot
    (bidSlot : Nat) {addr : Nat} {before : Views}
    {result : EStateM.Result Fault Views Unit}
    (patches : PatchesOrKeeps osb m addr
      { before with runtime := { before.runtime with bidSlot := bidSlot } } result) :
    PatchesOrKeeps osb m addr before result := by
  cases result with
  | ok value after =>
      obtain ⟨holds, slot, image, outside⟩ := patches
      have same := @patch_congr osb m
        { before with runtime := { before.runtime with bidSlot := bidSlot } } before
        rfl rfl addr slot
      exact ⟨holds, slot, image.trans same.1, outside.trans same.2⟩
  | error fault after => exact ⟨patches.image, patches.outside, patches.table, patches.symbols⟩

/-- The calls that patch a branch. -/
theorem regBranchPatch_patches
    {handle : Option Nat} {patch : BranchPatch} {before : Views}
    (heap : getCodeHeap handle before.runtime.modules = .ok (index, m)) :
    PatchesOrKeeps osb m patch.addr before
      (regBranchPatch osb handle patch before) := by
  have located := (getCodeHeap_ok heap).1
  unfold regBranchPatch
  rw [Stopping.bind_run]
  simp only [get, getThe, MonadStateOf.get, EStateM.get, heap, Stopping.lift, pure_bind]
  apply PatchesOrKeeps.of_bidSlot (allocBidSlot before.runtime.bidSlot).2
  cases patch with
  | ret addr extra => exact regRetStops_patches addr extra _
  | icjSym name addr => exact regIcjSymStops_patches name addr _ located

end Runs

section Places

variable {m : CodeModule} {addr : Nat}

/-- Behind the first four bytes of the heap the store stays in the mapping. -/
theorem patchPlace_inside
    (osb : OsbMapping m) (holds : m.Holds addr) (behind : m.baseAddr + 4 ≤ addr) :
    patchPlace osb.base m addr = osb.base + (addr - m.baseAddr - 4) := by
  have fits := osb.fits
  have high := holds.2
  unfold patchPlace
  omega

/-- In the first four bytes it begins below. -/
theorem patchPlace_below
    (osb : OsbMapping m) (holds : m.Holds addr) (front : addr < m.baseAddr + 4) :
    patchPlace osb.base m addr < osb.base := by
  have fits := osb.fits
  have mapped := osb.mapped
  have low := holds.1
  unfold patchPlace
  unfold pageSize at mapped
  omega

/-- The places of a store that stays in the mapping. -/
theorem mem_patchPlaces
    (osb : OsbMapping m) (holds : m.Holds addr) (behind : m.baseAddr + 4 ≤ addr)
    (place : Nat) :
    place ∈ patchPlaces osb.base m addr ↔
      osb.base + (addr - m.baseAddr - 4) ≤ place ∧
        place < osb.base + (addr - m.baseAddr) := by
  have fits := osb.fits
  have high := holds.2
  unfold patchPlaces
  rw [patchPlace_inside osb holds behind, List.mem_map]
  simp only [List.mem_range]
  constructor
  · rintro ⟨k, small, rfl⟩
    omega
  · rintro ⟨low, below⟩
    exact ⟨place - (osb.base + (addr - m.baseAddr - 4)), by omega, by omega⟩

/-- Such a store is the store of the slot before the registered address. -/
theorem patch_inside
    (osb : OsbMapping m) (holds : m.Holds addr) (behind : m.baseAddr + 4 ≤ addr)
    (slot : Nat) (views : Views) :
    views.patch osb.base m addr slot =
      { views with runtime := { views.runtime with
        image := patchBidSlot views.runtime.image addr slot } } := by
  have fits := osb.fits
  have high := holds.2
  have stored : ∀ (k : Nat) (byte : UInt8) (views : Views), k < 4 →
      views.storeByte osb.base m ((patchPlace osb.base m addr + k) % 2 ^ 64) byte =
        { views with runtime := { views.runtime with
          image := views.runtime.image.storeByte (addr - 4 + k) byte } } := by
    intro k byte views small
    have place : (patchPlace osb.base m addr + k) % 2 ^ 64 =
        osb.base + (addr - m.baseAddr - 4) + k := by
      rw [patchPlace_inside osb holds behind]
      omega
    have back : m.baseAddr + (osb.base + (addr - m.baseAddr - 4) + k - osb.base) =
        addr - 4 + k := by
      omega
    rw [place, Views.storeByte, if_pos (by omega), back]
  unfold Views.patch
  rw [show List.range 4 = [0, 1, 2, 3] from rfl, List.foldl_cons, stored 0 _ _ (by decide),
    List.foldl_cons, stored 1 _ _ (by decide), List.foldl_cons, stored 2 _ _ (by decide),
    List.foldl_cons, stored 3 _ _ (by decide), List.foldl_nil, patchBidSlot, store_succ,
    store_succ, store_succ, store_succ, store_zero]

end Places

section Refinement

variable {m : CodeModule} {index : Nat}

theorem Stopping.outcome_bind {α β : Type}
    (first : Stopping α) (next : α → Stopping β) (views : Views) :
    outcome ((first >>= next) views) =
      outcome (first views) >>= fun found => outcome (next found.1 found.2) := by
  rw [Stopping.bind_run]
  cases first views <;> rfl

/-- Registering a return behind the first four bytes is as before. -/
theorem regRetStops_outcome
    (osb : OsbMapping m) {addr : Nat} (behind : m.baseAddr + 4 ≤ addr) (extra : Nat)
    (before : Views) :
    Stopping.outcome (regRetStops osb.base index m addr extra before) =
      (regRet index m addr extra before.runtime).map fun runtime =>
        ((), { before with runtime := runtime }) := by
  unfold regRetStops regRet
  rw [Stopping.outcome_bind, (lookupRetStops_run extra before).1]
  cases lookupRet extra before.runtime with
  | error => rfl
  | ok found =>
      simp only [Except.map, ok_bind]
      split
      next => rfl
      next holds =>
        have patched := fun slot views => patch_inside osb (not_not.mp holds) behind slot views
        simp only [modify, modifyGet, MonadStateOf.modifyGet, EStateM.modifyGet,
          Stopping.outcome, patched]
        rfl

/-- So is registering an indirect branch. -/
theorem regIcjSymStops_outcome
    (osb : OsbMapping m) {addr : Nat} (behind : m.baseAddr + 4 ≤ addr) (name : Name)
    (before : Views) :
    Stopping.outcome (regIcjSymStops osb.base index m name addr before) =
      (regIcjSym index m name addr before.runtime).map fun runtime =>
        ((), { before with runtime := runtime }) := by
  unfold regIcjSymStops regIcjSym
  split
  next => rfl
  next holds =>
    have patched := fun slot views => patch_inside osb (not_not.mp holds) behind slot views
    rw [Stopping.outcome_bind]
    simp only [modify, modifyGet, MonadStateOf.modifyGet, EStateM.modifyGet, patched]
    unfold icjSlotStops
    rw [Stopping.bind_run]
    simp only [get, getThe, MonadStateOf.get, EStateM.get]
    cases dictFind m.bidSlotInCodeheap name with
    | some slot => rfl
    | none =>
        dsimp only [allocBidSlot]
        cases dictAdd m.bidSlotInCodeheap name before.runtime.bidSlot with
        | error => rfl
        | ok slots =>
            simp only [Stopping.lift, pure_bind, ok_bind]
            cases dictFind before.runtime.icjTarget name with
            | none => rfl
            | some callee =>
                simp only [bind, EStateM.bind, EStateM.modifyGet, pure, EStateM.pure, Except.bind,
                  modify, modifyGet, MonadStateOf.modifyGet, Stopping.outcome, Except.map,
                  Except.pure, Views.setModule, Runtime.setModule, List.set_set]
                rfl

/-- The calls that patch a branch behind the first four bytes are as before. -/
theorem regBranchPatch_outcome
    {handle : Option Nat} {patch : BranchPatch} {before : Views}
    (heap : getCodeHeap handle before.runtime.modules = .ok (index, m))
    (osb : OsbMapping m) (behind : m.baseAddr + 4 ≤ patch.addr) :
    Stopping.outcome (regBranchPatch osb.base handle patch before) =
      (regCfgMetadata handle patch.metadata before.runtime).map fun runtime =>
        ((), { before with runtime := runtime }) := by
  unfold regBranchPatch regCfgMetadata
  rw [Stopping.bind_run]
  simp only [get, getThe, MonadStateOf.get, EStateM.get, heap, Stopping.lift, pure_bind,
    ok_bind]
  cases patch with
  | ret addr extra => exact regRetStops_outcome osb behind extra _
  | icjSym name addr => exact regIcjSymStops_outcome osb behind name _

end Refinement

section Operands

/-- Code that the verifier has accepted for a place of the heap. -/
structure InstalledCode (m : CodeModule) where
  verifier : Verifier
  dst : Nat
  bytes : List UInt8
  verified : ∃ table checkTerminate tary,
    Passes verifier m table dst bytes checkTerminate tary

/-- `mov %gs:disp32, reg`, the nine bytes that end with a Bary slot. -/
def isBidRead : List UInt8 → Bool
  | [segment, rex, opcode, modrm, sib, _, _, _, _] =>
      segment == 0x65 && rex ||| 4 == 0x4c && opcode == 0x8b &&
        modrm &&& 0xc7 == 0x04 && sib == 0x25
  | _ => false

variable {m : CodeModule}

/-- The BID read of an instruction ends at an address. -/
def InstalledCode.BidReadEnds (code : InstalledCode m) (stop : Nat) : Prop :=
  ∃ ins ∈ instructions code.verifier code.bytes,
    code.dst + ins.start + 9 ≤ stop ∧ stop ≤ code.dst + ins.stop ∧
      isBidRead ((code.bytes.drop (stop - 9 - code.dst)).take 9) = true

/-- The four bytes before an address meet the code. -/
def InstalledCode.Meets (code : InstalledCode m) (addr : Nat) : Prop :=
  ∃ place, addr ≤ place + 4 ∧ place < addr ∧
    code.dst ≤ place ∧ place < code.dst + code.bytes.length

/--
The store for a registered address stays in the mapping of the heap, and in code
that it meets it covers the operand of a BID read and nothing else.
-/
structure PatchStays (osb : Nat) (m : CodeModule) (installed : List (InstalledCode m))
    (addr : Nat) : Prop where
  inHeap : ∀ place ∈ patchPlaces osb m addr, osb ≤ place ∧ place < osb + m.sz
  onOperand : ∀ code ∈ installed, code.Meets addr →
    ∃ stop, code.BidReadEnds stop ∧ ∀ place, place ∈ patchPlaces osb m addr ↔
      osb + (stop - m.baseAddr - 4) ≤ place ∧ place < osb + (stop - m.baseAddr)

/-- The address is behind four bytes of the heap, and in code behind a BID read. -/
structure BehindBid (installed : List (InstalledCode m)) (addr : Nat) : Prop where
  behind : m.baseAddr + 4 ≤ addr
  reads : ∀ code ∈ installed, code.Meets addr → code.BidReadEnds addr

/-- BID reads lie in the heap. -/
theorem InstalledCode.BidReadEnds.behind
    {code : InstalledCode m} {stop : Nat} (ends : code.BidReadEnds stop) :
    m.baseAddr + 9 ≤ stop := by
  obtain ⟨ins, _, low, _⟩ := ends
  obtain ⟨_, _, _, passes⟩ := code.verified
  have inside := passes.low
  omega

/-- For an accepted address the store stays where it belongs only behind a BID read. -/
theorem patchStays_iff
    (osb : OsbMapping m) (installed : List (InstalledCode m)) {addr : Nat}
    (holds : m.Holds addr) :
    PatchStays osb.base m installed addr ↔ BehindBid installed addr := by
  constructor
  · intro stays
    have behind : m.baseAddr + 4 ≤ addr := by
      by_contra front
      have below := patchPlace_below osb holds (Nat.lt_of_not_le front)
      have fits := osb.fits
      have first : patchPlace osb.base m addr ∈ patchPlaces osb.base m addr := by
        refine List.mem_map.mpr ⟨0, List.mem_range.mpr (by decide), ?_⟩
        rw [Nat.add_zero, Nat.mod_eq_of_lt]
        omega
      exact absurd (stays.inHeap _ first).1 (Nat.not_le.mpr below)
    refine ⟨behind, fun code listed meets => ?_⟩
    obtain ⟨stop, ends, covers⟩ := stays.onOperand code listed meets
    have reads := ends.behind
    have low := (covers (osb.base + (stop - m.baseAddr - 4))).mpr (by omega)
    have high := (covers (osb.base + (addr - m.baseAddr - 4))).mp
      ((mem_patchPlaces osb holds behind _).mpr (by omega))
    rw [mem_patchPlaces osb holds behind] at low
    obtain rfl : stop = addr := by omega
    exact ends
  · rintro ⟨behind, reads⟩
    refine ⟨fun place stored => ?_, fun code listed meets => ?_⟩
    · have high := holds.2
      have bounds := (mem_patchPlaces osb holds behind place).mp stored
      omega
    · exact ⟨addr, reads code listed meets, mem_patchPlaces osb holds behind⟩

/--
A call that registers a branch and is accepted stores its slot within the heap, onto
the operand of a BID read, exactly when the address is behind such a read; a call
that is rejected changes no code, table or symbol.
-/
theorem patches_stay_iff
    (handle : Option Nat) (patch : BranchPatch) (before : Views) {index : Nat}
    (heap : getCodeHeap handle before.runtime.modules = .ok (index, m))
    (osb : OsbMapping m) (installed : List (InstalledCode m)) :
    (∀ after, regBranchPatch osb.base handle patch before = .ok () after →
      (∃ slot,
        after.runtime.image = (before.patch osb.base m patch.addr slot).runtime.image ∧
        after.outside = (before.patch osb.base m patch.addr slot).outside) ∧
      (PatchStays osb.base m installed patch.addr ↔ BehindBid installed patch.addr)) ∧
    ∀ fault after, regBranchPatch osb.base handle patch before = .error fault after →
      before.Unchanged after := by
  have patches : PatchesOrKeeps osb.base m patch.addr before _ :=
    regBranchPatch_patches heap
  constructor
  · intro after returned
    rw [returned] at patches
    exact ⟨patches.2, patchStays_iff osb installed patches.1⟩
  · intro fault after stopped
    rw [stopped] at patches
    exact patches

/-- An automaton that accepts a BID read of slot zero. -/
def bidVerifier : Verifier :=
  spreadVerifier fun index =>
    if index = 13 * 256 + 0x65 then 14
    else if index = 14 * 256 + 0x48 then 15
    else if index = 15 * 256 + 0x8b then 16
    else if index = 16 * 256 + 0x3c then 17
    else if index = 17 * 256 + 0x25 then 18
    else if index = 18 * 256 then 19
    else if index = 19 * 256 then 20
    else if index = 20 * 256 then 21
    else if index = 21 * 256 then 1
    else 0

/-- A BID read at the base of a heap. -/
def bidCode : InstalledCode (exampleHeap bidVerifier) where
  verifier := bidVerifier
  dst := 0x400000
  bytes := [0x65, 0x48, 0x8b, 0x3c, 0x25, 0, 0, 0, 0]
  verified := ⟨fun _ => 0, false, _, rfl, by decide, by decide, 0, rfl⟩

/-- The heap is mapped a second time. -/
def bidMapping : OsbMapping (exampleHeap bidVerifier) where
  base := 0x10000000
  mapped := by decide
  fits := by decide

/-- A return is known already. -/
def knownReturn : Views where
  runtime := { Runtime.boot with
    modules := [exampleHeap bidVerifier]
    retName := (∅ : OrdDict Nat Name).insertNew 7 (Name.ofPtr 8)
    retOffset := (∅ : OrdDict Nat Nat).insertNew 7 0x11000 }
  outside := fun _ => 0

/-- Behind the BID read the store stays where it belongs. -/
theorem patches_stay_bid :
    ∃ after, regBranchPatch bidMapping.base (some 0) (.ret 0x400009 7) knownReturn =
        .ok () after ∧
      PatchStays bidMapping.base (exampleHeap bidVerifier) [bidCode] 0x400009 := by
  refine ⟨_, rfl, ((patches_stay_iff (some 0) (.ret 0x400009 7) knownReturn rfl bidMapping
    [bidCode]).1 _ rfl).2.mpr ⟨by decide, fun code listed meets => ?_⟩⟩
  rw [List.mem_singleton.mp listed]
  exact ⟨⟨0, 9, 1⟩, by decide +kernel, by decide, by decide, by decide⟩

/-- At the base of the heap the slot is stored below the mapping. -/
theorem patches_leave_heap :
    ¬ ∀ (handle : Option Nat) (patch : BranchPatch) (before : Views) (index : Nat)
      (m : CodeModule), getCodeHeap handle before.runtime.modules = .ok (index, m) →
        ∀ (osb : OsbMapping m) (installed : List (InstalledCode m)),
          (∀ after, regBranchPatch osb.base handle patch before = .ok () after →
            PatchStays osb.base m installed patch.addr) ∧
          ∀ fault after,
            regBranchPatch osb.base handle patch before = .error fault after →
              before.Unchanged after := by
  intro stays
  have first := ((stays (some 0) (.ret 0x400000 7) knownReturn 0 _ rfl bidMapping []).1
    _ rfl).inHeap 0xffffffc (by decide)
  exact absurd first.1 (by decide)

end Operands

end Mcfi
