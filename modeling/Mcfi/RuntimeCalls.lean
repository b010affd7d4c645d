import Mcfi.CodeHeap
import Mcfi.Generation
import Mcfi.Lib.HistoryRun

namespace Mcfi

open LinkMap ByteMem

/-!
# What the runtime calls change

Each returned call is given by its cases, once: what it found, and the state it
leaves.  The facts about runs of calls are derived from these cases and never
look into a call again.
-/

section Places

variable {β : Type} {view : CodeModule → β}

/-- The modules of a state keep what a view shows, and new ones come behind. -/
def KeepsView (view : CodeModule → β) (before after : List CodeModule) : Prop :=
  before.map view <+: after.map view

namespace KeepsView

theorem refl (modules : List CodeModule) : KeepsView view modules modules :=
  List.prefix_rfl

theorem trans {first second third : List CodeModule}
    (left : KeepsView view first second)
    (right : KeepsView view second third) : KeepsView view first third :=
  List.IsPrefix.trans left right

theorem of_map_eq {before after : List CodeModule}
    (same : after.map view = before.map view) :
    KeepsView view before after := by
  rw [KeepsView, same]

/-- New modules come behind the old ones. -/
theorem append (before later : List CodeModule) :
    KeepsView view before (before ++ later) := by
  rw [KeepsView, List.map_append]
  exact List.prefix_append _ _

/-- A module keeps its position. -/
theorem exists_getElem? {before after : List CodeModule}
    (keeps : KeepsView view before after) {index : Nat}
    {codeModule : CodeModule} (located : before[index]? = some codeModule) :
    ∃ later, after[index]? = some later ∧ view later = view codeModule := by
  obtain ⟨rest, same⟩ := keeps
  have inside : index < (before.map view).length := by
    rw [List.length_map]
    exact (List.getElem?_eq_some_iff.mp located).1
  have shown : (after.map view)[index]? = some (view codeModule) := by
    rw [← same, List.getElem?_append_left inside, List.getElem?_map, located]
    rfl
  rw [List.getElem?_map, Option.map_eq_some_iff] at shown
  exact shown

/-- A module stays loaded, with the same view. -/
theorem exists_mem {before after : List CodeModule}
    (keeps : KeepsView view before after) {codeModule : CodeModule}
    (loaded : codeModule ∈ before) :
    ∃ later ∈ after, view later = view codeModule := by
  obtain ⟨index, located⟩ := List.getElem?_of_mem loaded
  obtain ⟨later, found, same⟩ := keeps.exists_getElem? located
  exact ⟨later, List.mem_of_getElem? found, same⟩

end KeepsView

/-- Changing the module at an address keeps what the change does not touch. -/
theorem map_modifyModule
    (modules : List CodeModule) (addr : Nat) {change : CodeModule → CodeModule}
    (same : ∀ codeModule, view (change codeModule) = view codeModule) :
    (modifyModule modules addr change).map view = modules.map view := by
  induction modules with
  | nil => rfl
  | cons head rest inductionHypothesis =>
      rw [modifyModule]
      split
      next => rw [List.map_cons, List.map_cons, same]
      next => rw [List.map_cons, List.map_cons, inductionHypothesis]

/-- Searching for a function changes no more than the taken addresses. -/
theorem map_locate
    {modules located : List CodeModule} {funcAddr : Nat}
    {names : Option (KeySet Name)}
    (same : ∀ (codeModule : CodeModule) (fats : KeySet Name),
      view { codeModule with fats := fats } = view codeModule)
    (returned : takeAddrAndGenCfg.locate modules funcAddr =
      .ok (located, names)) :
    located.map view = modules.map view := by
  induction modules generalizing funcAddr located names with
  | nil =>
      cases returned
      rfl
  | cons head rest inductionHypothesis =>
      rw [takeAddrAndGenCfg.locate] at returned
      split at returned
      next =>
        split at returned
        next =>
          rw [bind_eq_ok] at returned
          obtain ⟨fats, _, stored⟩ := returned
          rw [pure_eq_ok] at stored
          cases stored
          rw [List.map_cons, List.map_cons, same]
        next =>
          rw [bind_eq_ok] at returned
          obtain ⟨⟨later, found⟩, searched, stored⟩ := returned
          rw [pure_eq_ok] at stored
          cases stored
          rw [List.map_cons, List.map_cons, inductionHypothesis searched]
      next =>
        rw [bind_eq_ok] at returned
        obtain ⟨⟨later, found⟩, searched, stored⟩ := returned
        rw [pure_eq_ok] at stored
        cases stored
        rw [List.map_cons, List.map_cons, inductionHypothesis searched]

/-- What no call changes of a loaded module. -/
def CodeModule.place (codeModule : CodeModule) : Nat × Nat × Bool × Bool :=
  (codeModule.baseAddr, codeModule.sz, codeModule.instrumented,
    codeModule.codeHeap)

/-- The modules of a state stay in their places, and new ones come behind. -/
def KeepsPlaces (before after : List CodeModule) : Prop :=
  before.map CodeModule.place <+: after.map CodeModule.place

/-- Replacing a module by a version of itself keeps the places. -/
theorem keepsPlaces_set
    {modules : List CodeModule} {index : Nat} {codeModule changed : CodeModule}
    (located : modules[index]? = some codeModule)
    (same : changed.place = codeModule.place) :
    KeepsPlaces modules (modules.set index changed) := by
  apply KeepsView.of_map_eq
  apply List.ext_getElem?
  intro position
  rw [List.getElem?_map, List.getElem?_map, List.getElem?_set]
  split
  next here =>
    subst here
    have inside := (List.getElem?_eq_some_iff.mp located).1
    rw [if_pos inside, located, Option.map_some, Option.map_some, same]
  next => rfl

end Places

section Filling

/--
What filling a code heap may change: the image, the bitmap of the heap, and in
the table boundary bytes inside the heap.
-/
inductive FillStep (index : Nat) (heap : CodeModule) (before : Runtime) :
    Runtime → Prop where
  | data (image : ByteMem) :
      FillStep index heap before { before with image := image }
  | replaced
      (image : ByteMem) (dst length : Nat) (boundaries : List Nat)
      (inside : heap.baseAddr ≤ dst ∧ dst + length ≤ heap.baseAddr + heap.sz) :
      FillStep index heap before { before with
        image := image
        table := before.table.storeBytes dst
          (boundaryBytes length boundaries) }
  | installed
      (image bitmap : ByteMem) (dst length : Nat) (boundaries : List Nat)
      (inside : heap.baseAddr ≤ dst ∧ dst + length ≤ heap.baseAddr + heap.sz) :
      FillStep index heap before { before with
        image := image
        table := before.table.storeBytes dst (boundaryBytes length boundaries)
        modules := before.modules.set index
          { heap with codeDataBitmap := bitmap } }

/-- The verifier's buffer marks the boundaries it found. -/
theorem verifyJittedCode_ok
    {v : Verifier} {table : ByteMem} {heap : CodeModule} {bytes : List UInt8}
    {bufferAddr installAddr : Nat} {checkTerminate : Bool} {tary : List UInt8}
    (returned : verifyJittedCode v table heap bytes bufferAddr installAddr
      checkTerminate = .ok tary) :
    ∃ boundaries, tary = boundaryBytes bytes.length boundaries := by
  unfold verifyJittedCode at returned
  rw [bind_eq_ok] at returned
  obtain ⟨scan, _, returned⟩ := returned
  simp only at returned
  split at returned
  next => cases returned
  next =>
    split at returned
    next =>
      rw [pure_eq_ok] at returned
      exact ⟨scan.boundaries, returned.symm⟩
    next => cases returned

private theorem installCode_cases
    {index : Nat} {heap : CodeModule} {dst length : Nat}
    {runtime result : Runtime} (image : ByteMem)
    (inside : heap.baseAddr ≤ dst ∧ dst + length ≤ heap.baseAddr + heap.sz)
    (returned : installCode index heap dst length
      { runtime with image := image } = .ok result) :
    FillStep index heap runtime result := by
  unfold installCode at returned
  rw [bind_eq_ok] at returned
  obtain ⟨_, _, returned⟩ := returned
  split at returned
  next => cases returned
  next v _ =>
    rw [bind_eq_ok] at returned
    obtain ⟨tary, verified, stored⟩ := returned
    obtain ⟨boundaries, rfl⟩ := verifyJittedCode_ok verified
    rw [pure_eq_ok] at stored
    subst stored
    have lengthIs : (readImage image dst length).length = length := by
      simp [readImage]
    rw [lengthIs]
    exact .installed image _ dst length boundaries inside

private theorem fillCode_cases
    {bufferAddr index : Nat} {heap : CodeModule} {dst : Nat}
    {src : List UInt8} {flags : FillFlags} {runtime result : Runtime}
    (inside : heap.baseAddr ≤ dst ∧
      dst + src.length ≤ heap.baseAddr + heap.sz)
    (returned : fillCode bufferAddr index heap dst src flags runtime =
      .ok result) :
    FillStep index heap runtime result := by
  unfold fillCode at returned
  simp only at returned
  split at returned
  next =>
    rw [bind_eq_ok] at returned
    obtain ⟨_, _, returned⟩ := returned
    exact installCode_cases _ inside returned
  next =>
    split at returned
    next => exact installCode_cases runtime.image inside returned
    next =>
      split at returned
      next =>
        unfold replaceCode at returned
        split at returned
        next =>
          rw [pure_eq_ok] at returned
          subst returned
          exact .data runtime.image
        next =>
          split at returned
          next => cases returned
          next =>
            split at returned
            next => cases returned
            next v _ =>
              rw [bind_eq_ok] at returned
              obtain ⟨tary, verified, stored⟩ := returned
              obtain ⟨boundaries, rfl⟩ := verifyJittedCode_ok verified
              rw [pure_eq_ok] at stored
              subst stored
              exact .replaced _ dst src.length boundaries inside
      next =>
        rw [pure_eq_ok] at returned
        subst returned
        exact .data runtime.image

/-- The cases of a returned `code_heap_fill`. -/
theorem codeHeapFill_cases
    {bufferAddr : Nat} {handle : Option Nat} {dst : Nat} {src : List UInt8}
    {extra : Nat} {runtime result : Runtime}
    (returned : codeHeapFill bufferAddr handle dst src extra runtime =
      .ok result) :
    ∃ index heap, runtime.modules[index]? = some heap ∧
      heap.codeHeap = true ∧ FillStep index heap runtime result := by
  unfold codeHeapFill at returned
  rw [bind_eq_ok] at returned
  obtain ⟨⟨index, heap⟩, handleRuns, returned⟩ := returned
  rw [bind_eq_ok] at returned
  obtain ⟨_, checked, returned⟩ := returned
  obtain ⟨located, isHeap⟩ := getCodeHeap_ok handleRuns
  have inside := checkFill_ok checked
  refine ⟨index, heap, located, isHeap, ?_⟩
  simp only at returned
  split at returned
  next => exact fillCode_cases inside returned
  next =>
    split at returned
    next => cases returned
    next =>
      split at returned
      next => cases returned
      next start _ =>
        rw [bind_eq_ok] at returned
        obtain ⟨_, patchChecked, returned⟩ := returned
        exact fillCode_cases (checkFill_ok patchChecked) returned
    next =>
      rw [pure_eq_ok] at returned
      subst returned
      exact .data _

/-- Filling a code heap keeps the places. -/
theorem FillStep.keepsPlaces
    {index : Nat} {heap : CodeModule} {before after : Runtime}
    (step : FillStep index heap before after)
    (located : before.modules[index]? = some heap) :
    KeepsPlaces before.modules after.modules := by
  cases step with
  | data image => exact KeepsView.refl _
  | replaced image dst length boundaries inside => exact KeepsView.refl _
  | installed image bitmap dst length boundaries inside =>
      exact keepsPlaces_set located rfl

end Filling

section Registration

/-- What registering metadata changes, once its slot counter has moved. -/
inductive RegStep (index : Nat) (m : CodeModule) (before : Runtime) :
    CfgMetadata → Runtime → Prop where
  | funcSym
      {newAddr addr : Nat} {name : Name}
      (holds : m.Holds newAddr) (newAligned : newAddr % 8 = 0)
      (aligned : addr % 8 = 0)
      (named : queryFunctionName before.modules addr = some name) :
      RegStep index m before (.funcSym newAddr addr)
        ({ before with
          table := before.table.store64 newAddr
            (before.table.load64 addr) }.setModule index
          (m.appendFuncsym name (newAddr - m.baseAddr)))
  | icjKnown {id : Name} {extra : Nat} :
      RegStep index m before (.icj id extra) before
  | icj
      {id name : Name} {extra ra : Nat} {f : Function}
      {icjTarget icjTargetRet : OrdDict Name Nat}
      (named : queryFunctionName before.modules extra = some name)
      (targetAdded : dictAdd before.icjTarget id extra = .ok icjTarget)
      (returnNamed : queryRad before.modules name = .ok ra)
      (returnAdded : dictAdd before.icjTargetRet id ra = .ok icjTargetRet) :
      RegStep index m before (.icj id extra)
        ({ before with
          icjTarget := icjTarget
          icjTargetRet := icjTargetRet }.setModule index
            (m.addIcf id (.normalCall f.type)))
  | icjSymCached
      {name : Name} {addr slot : Nat}
      (cached : m.bidSlotInCodeheap.find name = some slot) :
      RegStep index m before (.icjSym name addr)
        ({ before with
          image := patchBidSlot before.image addr (slot % 2 ^ 32) }.setModule
            index (m.appendIcfsym name (slot % 2 ^ 32)))
  | icjSymFresh
      {name : Name} {addr callee : Nat} {slots : OrdDict Name Nat}
      (added : dictAdd m.bidSlotInCodeheap name before.bidSlot = .ok slots)
      (target : before.icjTarget.find name = some callee) :
      RegStep index m before (.icjSym name addr)
        ({ before with
          bidSlot := (allocBidSlot before.bidSlot).2
          table := before.table.store64 before.bidSlot
            (before.table.load64 callee)
          image := patchBidSlot before.image addr before.bidSlot }.setModule
            index
            { m.appendIcfsym name before.bidSlot with
              bidSlotInCodeheap := slots })
  | rai
      {name : Name} {addr ra : Nat}
      (holds : m.Holds addr) (aligned : addr % 8 = 0)
      (target : before.icjTargetRet.find name = some ra) :
      RegStep index m before (.rai name addr)
        ({ before with
          table := setBit0 (before.table.store64 addr
            (before.table.load64 ra)) addr }.setModule index
          (m.appendRai name (addr - m.baseAddr)))
  | icjSymUnreg {name : Name} :
      RegStep index m before (.icjSymUnreg name)
        (before.setModule index
          { m with icfsyms := m.icfsyms.filter fun s => name ≠ s.name })
  | funcSymUnreg
      {addr : Nat} (holds : m.Holds addr) (aligned : addr % 8 = 0) :
      RegStep index m before (.funcSymUnreg addr)
        ({ before with
          table := (before.table.store64 addr 0).store64 addr 0 }.setModule
            index
          { m with
            funcsyms := m.funcsyms.filter fun s => s.offset ≠ addr - m.baseAddr
            rai := m.rai.filter fun s => s.offset ≠ addr - m.baseAddr })
  | raiUnreg
      {addr : Nat} (holds : m.Holds addr) (aligned : addr % 8 = 0) :
      RegStep index m before (.raiUnreg addr)
        ({ before with table := before.table.store64 addr 0 }.setModule index
          { m with rai := m.rai.filter fun s => s.offset ≠ addr - m.baseAddr })
  | retKnown
      {addr extra slot : Nat} {name : Name}
      (nameKnown : before.retName.find extra = some name)
      (slotKnown : before.retOffset.find extra = some slot) :
      RegStep index m before (.ret addr extra)
        ({ before with
          image := patchBidSlot before.image addr slot }.setModule index
            (m.appendIcfsym name slot))
  | ret
      {addr extra : Nat} {name : Name} {sym : Symbol}
      {retName : OrdDict Nat Name} {retOffset : OrdDict Nat Nat}
      (found : queryIcfsym before.modules name = .ok sym)
      (nameAdded : dictAdd before.retName extra name = .ok retName)
      (slotAdded : dictAdd before.retOffset extra (sym.offset % 2 ^ 32) =
        .ok retOffset) :
      RegStep index m before (.ret addr extra)
        ({ before with
          retName := retName
          retOffset := retOffset
          image := patchBidSlot before.image addr
            (sym.offset % 2 ^ 32) }.setModule index
              (m.appendIcfsym name (sym.offset % 2 ^ 32)))

private theorem lookupRet_cases
    {extra : Nat} {before : Runtime} {name : Name} {slot : Nat}
    {after : Runtime}
    (returned : lookupRet extra before = .ok (name, slot, after)) :
    (before.retName.find extra = some name ∧
        before.retOffset.find extra = some slot ∧ after = before) ∨
      ∃ sym retName retOffset, queryIcfsym before.modules name = .ok sym ∧
        dictAdd before.retName extra name = .ok retName ∧
        slot = sym.offset % 2 ^ 32 ∧
        dictAdd before.retOffset extra slot = .ok retOffset ∧
        after = { before with retName := retName, retOffset := retOffset } := by
  unfold lookupRet dictFind at returned
  split at returned
  next known nameKnown =>
    split at returned
    next => cases returned
    next slotKnown =>
      cases returned
      exact Or.inl ⟨nameKnown, slotKnown, rfl⟩
  next =>
    split at returned
    next => cases returned
    next =>
      rw [bind_eq_ok] at returned
      obtain ⟨f, _, returned⟩ := returned
      split at returned
      next => cases returned
      next =>
        rw [bind_eq_ok] at returned
        obtain ⟨retName, nameAdded, returned⟩ := returned
        rw [bind_eq_ok] at returned
        obtain ⟨sym, found, returned⟩ := returned
        rw [bind_eq_ok] at returned
        obtain ⟨retOffset, slotAdded, stored⟩ := returned
        rw [pure_eq_ok] at stored
        cases stored
        exact Or.inr ⟨sym, retName, retOffset, found, nameAdded, rfl,
          slotAdded, rfl⟩

private theorem regIcjSym_cases
    {index : Nat} {m : CodeModule} {name : Name} {addr : Nat}
    {before result : Runtime}
    (returned : regIcjSym index m name addr before = .ok result) :
    RegStep index m before (.icjSym name addr) result := by
  unfold regIcjSym dictFind at returned
  split at returned
  next => cases returned
  next =>
    simp only [allocBidSlot] at returned
    split at returned
    next slot cached =>
      rw [pure_bind, pure_eq_ok] at returned
      subst returned
      exact .icjSymCached cached
    next =>
      rw [bind_eq_ok] at returned
      obtain ⟨slots, added, returned⟩ := returned
      split at returned
      next =>
        rw [bind_eq_ok] at returned
        obtain ⟨_, failed, _⟩ := returned
        cases failed
      next callee target =>
        rw [pure_bind, pure_eq_ok] at returned
        subst returned
        exact .icjSymFresh added target

private theorem regFuncSym_cases
    {index : Nat} {m : CodeModule} {newAddr addr : Nat}
    {before result : Runtime}
    (returned : regFuncSym index m newAddr addr before = .ok result) :
    RegStep index m before (.funcSym newAddr addr) result := by
  unfold regFuncSym at returned
  split at returned
  next => cases returned
  next newFits =>
    split at returned
    next => cases returned
    next fits =>
      split at returned
      next => cases returned
      next name named =>
        cases returned
        exact .funcSym (not_not.mp fun outside => newFits (Or.inl outside))
          (not_not.mp fun odd => newFits (Or.inr odd))
          (not_not.mp fun odd => fits (Or.inr odd)) named

private theorem regIcj_cases
    {index : Nat} {m : CodeModule} {id : Name} {extra : Nat}
    {before result : Runtime}
    (returned : regIcj index m id extra before = .ok result) :
    RegStep index m before (.icj id extra) result := by
  unfold regIcj at returned
  split at returned
  next =>
    cases returned
    exact .icjKnown
  next =>
    split at returned
    next => cases returned
    next name named =>
      rw [bind_eq_ok] at returned
      obtain ⟨f, _, returned⟩ := returned
      rw [bind_eq_ok] at returned
      obtain ⟨icjTarget, targetAdded, returned⟩ := returned
      rw [bind_eq_ok] at returned
      obtain ⟨ra, returnNamed, returned⟩ := returned
      rw [bind_eq_ok] at returned
      obtain ⟨icjTargetRet, returnAdded, stored⟩ := returned
      rw [pure_eq_ok] at stored
      subst stored
      exact .icj named targetAdded returnNamed returnAdded

private theorem regRai_cases
    {index : Nat} {m : CodeModule} {name : Name} {addr : Nat}
    {before result : Runtime}
    (returned : regRai index m name addr before = .ok result) :
    RegStep index m before (.rai name addr) result := by
  unfold regRai dictFind at returned
  split at returned
  next => cases returned
  next fits =>
    split at returned
    next => cases returned
    next ra target =>
      cases returned
      exact .rai (not_not.mp fun outside => fits (Or.inl outside))
        (not_not.mp fun odd => fits (Or.inr odd)) target

private theorem regRaiUnreg_cases
    {index : Nat} {m : CodeModule} {addr : Nat} {before result : Runtime}
    (returned : regRaiUnreg index m addr before = .ok result) :
    m.Holds addr ∧ addr % 8 = 0 ∧
      result = { before with
        table := before.table.store64 addr 0 }.setModule index
          { m with rai := m.rai.filter fun s =>
              s.offset ≠ addr - m.baseAddr } := by
  unfold regRaiUnreg at returned
  split at returned
  next => cases returned
  next fits =>
    cases returned
    exact ⟨not_not.mp fun outside => fits (Or.inl outside),
      not_not.mp fun odd => fits (Or.inr odd), rfl⟩

private theorem regFuncSymUnreg_cases
    {index : Nat} {m : CodeModule} {addr : Nat} {before result : Runtime}
    (returned : regFuncSymUnreg index m addr before = .ok result) :
    RegStep index m before (.funcSymUnreg addr) result := by
  unfold regFuncSymUnreg at returned
  split at returned
  next => cases returned
  next =>
    obtain ⟨holds, aligned, rfl⟩ := regRaiUnreg_cases returned
    exact .funcSymUnreg holds aligned

private theorem regRet_cases
    {index : Nat} {m : CodeModule} {addr extra : Nat} {before result : Runtime}
    (returned : regRet index m addr extra before = .ok result) :
    RegStep index m before (.ret addr extra) result := by
  unfold regRet at returned
  rw [bind_eq_ok] at returned
  obtain ⟨⟨name, slot, middle⟩, lookup, returned⟩ := returned
  simp only at returned
  split at returned
  next => cases returned
  next =>
    rw [pure_eq_ok] at returned
    subst returned
    rcases lookupRet_cases lookup with ⟨nameKnown, slotKnown, rfl⟩ |
      ⟨sym, retName, retOffset, found, nameAdded, rfl, slotAdded, rfl⟩
    · exact .retKnown nameKnown slotKnown
    · exact .ret found nameAdded slotAdded

/-- The cases of a returned `reg_cfg_metadata`. -/
theorem regCfgMetadata_cases
    {handle : Option Nat} {metadata : CfgMetadata} {runtime result : Runtime}
    (returned : regCfgMetadata handle metadata runtime = .ok result) :
    ∃ index m, getCodeHeap handle runtime.modules = .ok (index, m) ∧
      RegStep index m
        { runtime with bidSlot := (allocBidSlot runtime.bidSlot).2 }
        metadata result := by
  unfold regCfgMetadata at returned
  rw [bind_eq_ok] at returned
  obtain ⟨⟨index, m⟩, handleRuns, returned⟩ := returned
  refine ⟨index, m, handleRuns, ?_⟩
  cases metadata with
  | funcSym newAddr addr => exact regFuncSym_cases returned
  | icj id extra => exact regIcj_cases returned
  | icjSym name addr => exact regIcjSym_cases returned
  | rai name addr => exact regRai_cases returned
  | icjSymUnreg name =>
      cases returned
      exact .icjSymUnreg
  | funcSymUnreg addr => exact regFuncSymUnreg_cases returned
  | raiUnreg addr =>
      obtain ⟨holds, aligned, rfl⟩ := regRaiUnreg_cases returned
      exact .raiUnreg holds aligned
  | ret addr extra => exact regRet_cases returned

/-- A branch found by name is a branch of some module. -/
theorem queryIcfsym_ok
    {modules : List CodeModule} {name : Name} {sym : Symbol}
    (returned : queryIcfsym modules name = .ok sym) :
    ∃ codeModule ∈ modules, sym ∈ codeModule.icfsyms := by
  unfold queryIcfsym at returned
  split at returned
  next found search =>
    cases returned
    exact List.mem_flatMap.mp (List.mem_of_find?_eq_some search)
  next => cases returned

/-- Registering metadata keeps the places. -/
theorem RegStep.keepsPlaces
    {index : Nat} {m : CodeModule} {before after : Runtime}
    {metadata : CfgMetadata}
    (step : RegStep index m before metadata after)
    (located : before.modules[index]? = some m) :
    KeepsPlaces before.modules after.modules := by
  cases step with
  | icjKnown => exact KeepsView.refl _
  | _ => exact keepsPlaces_set located rfl

end Registration

section Patching

/-- `patch_at` activates the recorded sites of the function and forgets them. -/
theorem patchAt_ok
    {patchpoint : Nat} {runtime result : Runtime}
    (returned : patchAt patchpoint runtime = .ok result) :
    ∃ codeModule name,
      findModule runtime.modules patchpoint = some codeModule ∧
      patchpoint % 8 = 0 ∧
      codeModule.atFunc.find (patchpoint - codeModule.baseAddr) = some name ∧
      (runtime.fatsInCode.targets name = [] ∨ runtime.cfggened = true) ∧
      result = { runtime with
        table := (runtime.fatsInCode.targets name).foldl activate runtime.table
        fatsInCode := gDelVertex runtime.fatsInCode name
        image := runtime.image.store64 (patchpoint - 8)
          (runtime.image.load (patchpoint - 8) 3 + fiveByteNop) } := by
  unfold patchAt at returned
  split at returned
  next => cases returned
  next codeModule located =>
    rw [bind_eq_ok] at returned
    obtain ⟨_, aligned, returned⟩ := returned
    rw [check_eq_ok, beq_iff_eq] at aligned
    simp only at returned
    split at returned
    next => cases returned
    next name named =>
      refine ⟨codeModule, name, located, aligned, named, ?_⟩
      unfold dictFind at returned
      split at returned
      next absent =>
        rw [pure_bind, pure_eq_ok] at returned
        subst returned
        have noSites : runtime.fatsInCode.targets name = [] := by
          rw [targets, absent]
        have unchanged : gDelVertex runtime.fatsInCode name =
            runtime.fatsInCode :=
          OrdDict.erase_of_not_mem (OrdDict.find_eq_none.mp absent)
        rw [noSites, unchanged]
        exact ⟨Or.inl rfl, rfl⟩
      next atsites found =>
        rw [bind_eq_ok] at returned
        obtain ⟨_, checked, returned⟩ := returned
        rw [pure_bind, pure_eq_ok] at returned
        subst returned
        have sites : runtime.fatsInCode.targets name = atsites.keys := by
          rw [targets, found]
        rw [check_eq_ok, Bool.or_eq_true, List.isEmpty_iff] at checked
        rw [sites]
        exact ⟨checked, rfl⟩

/-- What `patch_at` changes: it activates recorded sites of one function. -/
theorem patchAt_cases
    {patchpoint : Nat} {runtime result : Runtime}
    (returned : patchAt patchpoint runtime = .ok result) :
    ∃ (sites : List Nat) (fatsInCode : LinkMap Name Nat) (image : ByteMem),
      result = { runtime with
        table := sites.foldl activate runtime.table
        fatsInCode := fatsInCode
        image := image } ∧
      (∀ site ∈ sites, ∃ name, Linked runtime.fatsInCode name site) ∧
      ∀ name site, Linked fatsInCode name site →
        Linked runtime.fatsInCode name site := by
  obtain ⟨_, name, _, _, _, _, rfl⟩ := patchAt_ok returned
  refine ⟨_, _, _, rfl, fun site listed => ⟨name, mem_targets.mp listed⟩, ?_⟩
  rintro other site ⟨sites, kept, recorded⟩
  rw [gDelVertex, OrdDict.find_erase] at kept
  split at kept
  next => cases kept
  next => exact ⟨sites, kept, recorded⟩

/-- The Tary entries that a constructor activates. -/
def ctorSites (runtime : Runtime) (codeModule : CodeModule) (offset : Nat) :
    List Nat :=
  match ctorMethods codeModule offset with
  | none => []
  | some (_, names) => names.flatMap runtime.vmtd.targets

/-- The records of vtables that a constructor leaves. -/
def ctorVtable (codeModule : CodeModule) (offset : Nat) :
    OrdDict Name (List Name) :=
  match ctorMethods codeModule offset with
  | none => codeModule.vtable
  | some (className, _) => dictDel codeModule.vtable className

/--
`patch_entry` activates the methods of the class that is constructed, marks the
landing pads of the function and restores its first word.
-/
theorem patchEntry_ok
    {patchpoint : Nat} {runtime result : Runtime}
    (returned : patchEntry patchpoint runtime = .ok result) :
    ∃ codeModule original,
      findModule runtime.modules patchpoint = some codeModule ∧
      patchpoint % 8 = 0 ∧ runtime.cfggened = true ∧
      codeModule.funcOrig.find (patchpoint - codeModule.baseAddr) =
        some original ∧
      result = { runtime with
        modules := modifyModule runtime.modules patchpoint fun found =>
          { found with
            vtable := ctorVtable codeModule (patchpoint - codeModule.baseAddr)
            flp := gDelVertex found.flp (patchpoint - codeModule.baseAddr) }
        table := (codeModule.flp.targets
            (patchpoint - codeModule.baseAddr)).foldl
          (fun table key => table.storeByte (codeModule.baseAddr + key)
            (UInt8.ofNat LPV))
          ((ctorSites runtime codeModule
            (patchpoint - codeModule.baseAddr)).foldl activate runtime.table)
        image := runtime.image.store64 patchpoint original } := by
  unfold patchEntry at returned
  split at returned
  next => cases returned
  next codeModule located =>
    rw [bind_eq_ok] at returned
    obtain ⟨_, aligned, returned⟩ := returned
    rw [check_eq_ok, beq_iff_eq] at aligned
    simp only at returned
    rw [bind_eq_ok] at returned
    obtain ⟨_, generated, returned⟩ := returned
    rw [check_eq_ok] at generated
    split at returned
    next => cases returned
    next original found =>
      rw [pure_eq_ok] at returned
      subst returned
      refine ⟨codeModule, original, located, aligned, generated, found, ?_⟩
      rw [ctorSites, ctorVtable]
      cases ctorMethods codeModule (patchpoint - codeModule.baseAddr) with
      | none => rfl
      | some entry =>
          obtain ⟨className, names⟩ := entry
          simp only [List.foldl_flatMap]

/-- The methods that a constructor activates were recorded. -/
theorem mem_ctorSites
    {runtime : Runtime} {codeModule : CodeModule} {offset site : Nat}
    (listed : site ∈ ctorSites runtime codeModule offset) :
    ∃ name, Linked runtime.vmtd name site := by
  unfold ctorSites at listed
  split at listed
  next => cases listed
  next names _ =>
    obtain ⟨name, _, recorded⟩ := List.mem_flatMap.mp listed
    exact ⟨name, mem_targets.mp recorded⟩

/-- What `patch_entry` changes: it activates methods and marks landing pads. -/
theorem patchEntry_cases
    {patchpoint : Nat} {runtime result : Runtime}
    (returned : patchEntry patchpoint runtime = .ok result) :
    ∃ (codeModule : CodeModule) (sites pads : List Nat)
      (vtable : OrdDict Name (List Name)) (image : ByteMem),
      findModule runtime.modules patchpoint = some codeModule ∧
      patchpoint % 8 = 0 ∧
      pads = (codeModule.flp.targets
        (patchpoint - codeModule.baseAddr)).map (codeModule.baseAddr + ·) ∧
      result = { runtime with
        modules := modifyModule runtime.modules patchpoint fun found =>
          { found with
            vtable := vtable
            flp := gDelVertex found.flp (patchpoint - codeModule.baseAddr) }
        table := pads.foldl
          (fun table pad => table.storeByte pad (UInt8.ofNat LPV))
          (sites.foldl activate runtime.table)
        image := image } ∧
      ∀ site ∈ sites, ∃ name, Linked runtime.vmtd name site := by
  obtain ⟨codeModule, original, located, aligned, _, _, rfl⟩ :=
    patchEntry_ok returned
  refine ⟨codeModule,
    ctorSites runtime codeModule (patchpoint - codeModule.baseAddr), _,
    ctorVtable codeModule (patchpoint - codeModule.baseAddr),
    runtime.image.store64 patchpoint original, located, aligned, rfl, ?_,
    fun _ => mem_ctorSites⟩
  rw [List.foldl_map]

/--
`patch_call` restores the call before a return address, and activates the return
address or keeps it for the first generation; a repetition changes nothing.
-/
theorem patchCall_ok
    {patchpoint : Nat} {runtime result : Runtime}
    (returned : patchCall patchpoint runtime = .ok result) :
    ∃ codeModule, findModule runtime.modules patchpoint = some codeModule ∧
      ((patchpoint ∈ runtime.patchedRa ∧ result = runtime) ∨
        ∃ original, patchpoint ∉ runtime.patchedRa ∧
          codeModule.raOrig.find
            ((roundUp8 patchpoint).addr - codeModule.baseAddr) =
              some original ∧
          (runtime.cfggened = true ∨
            roundUp8 patchpoint ∉ runtime.patchCompensate) ∧
          result = { runtime with
            table :=
              if runtime.cfggened then
                setBit0 runtime.table (roundUp8 patchpoint).addr
              else runtime.table
            patchCompensate :=
              if runtime.cfggened then runtime.patchCompensate
              else runtime.patchCompensate.insertNew (roundUp8 patchpoint) ()
            patchedRa := runtime.patchedRa.insertNew patchpoint ()
            image := runtime.image.store64 ((roundUp8 patchpoint).addr - 8)
              original }) := by
  unfold patchCall at returned
  split at returned
  next => cases returned
  next codeModule located =>
    refine ⟨codeModule, located, ?_⟩
    rw [bind_eq_ok] at returned
    obtain ⟨_, _, returned⟩ := returned
    split at returned
    next repeated =>
      rw [pure_eq_ok] at returned
      exact Or.inl ⟨dictIn_iff.mp repeated, returned.symm⟩
    next =>
      rw [bind_eq_ok] at returned
      obtain ⟨patchedRa, added, returned⟩ := returned
      obtain ⟨fresh, rfl⟩ := dictAdd_eq_ok.mp added
      simp only at returned
      split at returned
      next => cases returned
      next original found =>
        refine Or.inr ⟨original, fresh, found, ?_⟩
        split at returned
        next generated =>
          rw [pure_bind, pure_eq_ok] at returned
          subst returned
          simp only [generated, if_true]
          exact ⟨Or.inl trivial, trivial⟩
        next notGenerated =>
          rw [bind_eq_ok] at returned
          obtain ⟨patchCompensate, kept, returned⟩ := returned
          obtain ⟨freshTarget, rfl⟩ := dictAdd_eq_ok.mp kept
          rw [pure_bind, pure_eq_ok] at returned
          subst returned
          simp only [notGenerated, Bool.false_eq_true, if_false]
          exact ⟨Or.inr freshTarget, trivial⟩

/-- What `patch_call` changes: it activates one return address. -/
theorem patchCall_cases
    {patchpoint : Nat} {runtime result : Runtime}
    (returned : patchCall patchpoint runtime = .ok result) :
    result = runtime ∨
      ∃ (target : WordAddr) (table image : ByteMem)
        (patchedRa : KeySet Nat) (patchCompensate : KeySet WordAddr),
        (table = runtime.table ∨ table = setBit0 runtime.table target.addr) ∧
        result = { runtime with
          table := table
          image := image
          patchedRa := patchedRa
          patchCompensate := patchCompensate } := by
  obtain ⟨_, _, ⟨_, same⟩ | ⟨_, _, _, _, rfl⟩⟩ := patchCall_ok returned
  · exact Or.inl same
  · refine Or.inr ⟨roundUp8 patchpoint, _, _, _, _, ?_, rfl⟩
    split
    · exact Or.inr rfl
    · exact Or.inl rfl

end Patching

section Calls

/-- The calls of the runtime that this development models. -/
inductive Call where
  | load (parsed : CodeModule)
  | generate (attrs : UInt8)
  | takeAddress (attrs : UInt8) (funcAddr : Nat)
  | patchAt (patchpoint : Nat)
  | patchEntry (patchpoint : Nat)
  | patchCall (patchpoint : Nat)
  | createHeap (ph page size : Nat) (verifier : Option Verifier)
  | fill (bufferAddr : Nat) (handle : Option Nat) (dst : Nat)
      (src : List UInt8) (extra : Nat)
  | register (handle : Option Nat) (metadata : CfgMetadata)

/-- Run a call. -/
def Call.run : Call → Runtime → Rt Runtime
  | .load parsed => fun runtime => .ok (loadElf parsed runtime)
  | .generate attrs => genCfg attrs
  | .takeAddress attrs funcAddr => takeAddrAndGenCfg attrs funcAddr
  | .patchAt patchpoint => Mcfi.patchAt patchpoint
  | .patchEntry patchpoint => Mcfi.patchEntry patchpoint
  | .patchCall patchpoint => Mcfi.patchCall patchpoint
  | .createHeap ph page size verifier => createCodeHeap ph page size verifier
  | .fill bufferAddr handle dst src extra =>
      codeHeapFill bufferAddr handle dst src extra
  | .register handle metadata => regCfgMetadata handle metadata

/-- Some call leads from one state to another. -/
def Returns (before after : Runtime) : Prop :=
  ∃ call : Call, call.run before = .ok after

/-- A returned call that a predicate on calls admits. -/
structure Admitted (admits : Runtime → Call → Prop) (before : Runtime)
    (call : Call) (after : Runtime) : Prop where
  admitted : admits before call
  returned : call.run before = .ok after

/-- A generation keeps the places. -/
theorem keepsPlaces_genCfg
    {attrs : UInt8} {runtime result : Runtime}
    (returned : genCfg attrs runtime = .ok result) :
    KeepsPlaces runtime.modules result.modules := by
  obtain ⟨_, _, outcome⟩ := genCfg_result returned
  apply KeepsView.of_map_eq
  rw [outcome.modulesAre, List.map_map]
  rfl

/-- Creating a code heap appends its module. -/
theorem createCodeHeap_ok
    {ph page size : Nat} {verifier : Option Verifier} {runtime result : Runtime}
    (returned : createCodeHeap ph page size verifier runtime = .ok result) :
    ∃ heap, result = { runtime with modules := runtime.modules ++ [heap] } ∧
      heap.place = (page * pageSize, size, false, true) ∧ 0 < size ∧
      heap.icfsyms = [] ∧ heap.bidSlotInCodeheap = ∅ := by
  unfold createCodeHeap at returned
  split at returned
  next => cases returned
  next =>
    split at returned
    next => cases returned
    next =>
      split at returned
      next => cases returned
      next =>
        split at returned
        next mapped =>
          cases returned
          exact ⟨_, rfl, rfl, mapped.1, rfl, rfl⟩
        next => cases returned

/-- Taking an address changes the taken names of a module, and generates. -/
theorem takeAddrAndGenCfg_ok
    {attrs : UInt8} {funcAddr : Nat} {runtime result : Runtime}
    (returned : takeAddrAndGenCfg attrs funcAddr runtime = .ok result) :
    ∃ modules, genCfg attrs { runtime with modules := modules } = .ok result ∧
      ∀ {β : Type} {view : CodeModule → β},
        (∀ (m : CodeModule) (fats : KeySet Name),
          view { m with fats := fats } = view m) →
        modules.map view = runtime.modules.map view := by
  unfold takeAddrAndGenCfg at returned
  rw [bind_eq_ok] at returned
  obtain ⟨⟨modules, names⟩, searched, returned⟩ := returned
  cases names with
  | none => cases returned
  | some names =>
      exact ⟨modules, returned, fun same => map_locate same searched⟩

/-- Taking an address keeps the places. -/
theorem keepsPlaces_takeAddrAndGenCfg
    {attrs : UInt8} {funcAddr : Nat} {runtime result : Runtime}
    (returned : takeAddrAndGenCfg attrs funcAddr runtime = .ok result) :
    KeepsPlaces runtime.modules result.modules := by
  obtain ⟨modules, generated, located⟩ := takeAddrAndGenCfg_ok returned
  exact KeepsView.trans (KeepsView.of_map_eq (located fun _ _ => rfl))
    (keepsPlaces_genCfg generated)

/-- No call moves a module. -/
theorem Returns.keepsPlaces
    {before after : Runtime} (returns : Returns before after) :
    KeepsPlaces before.modules after.modules := by
  obtain ⟨call, returned⟩ := returns
  cases call with
  | load parsed =>
      cases returned
      exact KeepsView.append _ _
  | generate attrs => exact keepsPlaces_genCfg returned
  | takeAddress attrs funcAddr => exact keepsPlaces_takeAddrAndGenCfg returned
  | patchAt patchpoint =>
      obtain ⟨_, _, _, rfl, _⟩ := patchAt_cases returned
      exact KeepsView.refl _
  | patchEntry patchpoint =>
      obtain ⟨_, _, _, _, _, _, _, _, rfl, _⟩ := patchEntry_cases returned
      exact KeepsView.of_map_eq (map_modifyModule _ _ fun _ => rfl)
  | patchCall patchpoint =>
      rcases patchCall_cases returned with rfl | ⟨_, _, _, _, _, _, rfl⟩
      · exact KeepsView.refl _
      · exact KeepsView.refl _
  | createHeap ph page size verifier =>
      obtain ⟨heap, rfl, _⟩ := createCodeHeap_ok returned
      exact KeepsView.append _ _
  | fill bufferAddr handle dst src extra =>
      obtain ⟨index, heap, located, _, step⟩ := codeHeapFill_cases returned
      exact step.keepsPlaces located
  | register handle metadata =>
      obtain ⟨index, m, handleRuns, step⟩ := regCfgMetadata_cases returned
      exact step.keepsPlaces (getCodeHeap_ok handleRuns).1

/-- No run of calls moves a module. -/
theorem keepsPlaces_run
    {before after : Runtime}
    (calls : Relation.ReflTransGen Returns before after) :
    KeepsPlaces before.modules after.modules := by
  induction calls with
  | refl => exact KeepsView.refl _
  | tail _ returns inductionHypothesis =>
      exact inductionHypothesis.trans returns.keepsPlaces

end Calls

end Mcfi
