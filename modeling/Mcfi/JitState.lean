import Mcfi.RuntimeCalls

namespace Mcfi

open LinkMap ByteMem

/-!
# Code heaps under later generations

`create_code_heap` leaves the flag `instrumented` of its module clear, and
`gen_tary` fills the whole Tary range of an uninstrumented module with `NPV`.
So a generation overwrites the instruction boundaries and the registered targets
of every code heap, whatever was installed before.
-/

/--
A generation keeps the JIT state of a code heap: its instruction boundaries and
zero words stay, no store brings `NPV` into its range, and its functions and
return addresses have the ids of those that they were registered as.
-/
structure PreservesJitState (attrs : UInt8) (heap : CodeModule)
    (before after : Runtime) : Prop where
  boundaries : ∀ addr, heap.Holds addr →
    before.table addr = UInt8.ofNat DCV → after.table addr = UInt8.ofNat DCV
  zeroWords : ∀ addr, heap.Holds addr → addr % 8 = 0 →
    before.table.load64 addr = 0 → after.table.load64 addr = 0
  noNativeMarker : ∀ cfg, computeCfg attrs before = .ok cfg →
    ∀ store ∈ tableUpdate cfg.tables before.modules, ∀ k < 8,
      heap.Holds (store.addr + k) → store.word / 256 ^ k % 256 ≠ NPV
  functions : ∀ sym ∈ heap.funcsyms, ∀ codeModule ∈ before.modules,
    codeModule.codeHeap = false → ∀ original ∈ codeModule.funcsyms,
      original.name = sym.name →
        after.table.load64 (heap.baseAddr + sym.offset) ||| 1 =
          after.table.load64 (codeModule.baseAddr + original.offset) ||| 1
  returns : ∀ sym ∈ heap.rai, ∀ ra,
    before.icjTargetRet.find sym.name = some ra →
      after.table.load64 (heap.baseAddr + sym.offset) ||| 1 =
        after.table.load64 ra ||| 1

/-- The pass stores the marker word at the start of an uninstrumented module. -/
theorem native_store_mem
    (tables : IdTables) {modules : List CodeModule} {heap : CodeModule}
    (loaded : heap ∈ modules) (native : heap.instrumented = false)
    (notEmpty : 0 < heap.sz) :
    TableStore.native heap.baseAddr ∈ tableUpdate tables modules := by
  refine mem_tableUpdate.mpr ⟨heap, loaded, Or.inl
    ((mem_genTary_native native).mpr ⟨0, ?_, by rw [Nat.mul_zero, Nat.add_zero]⟩)⟩
  have wholePages := heap.sizeAligned
  unfold pageSize at wholePages
  omega

/--
No generation keeps the JIT state of a code heap that was created before it,
whatever the process did in between.
-/
theorem genCfg_loses_jitState
    {ph page size : Nat} {verifier : Option Verifier}
    {start created before after : Runtime} {attrs : UInt8}
    (creates : createCodeHeap ph page size verifier start = .ok created)
    (calls : Relation.ReflTransGen Returns created before)
    (generated : genCfg attrs before = .ok after) :
    ∃ heap,
      getCodeHeap (some start.modules.length) before.modules =
        .ok (start.modules.length, heap) ∧
      ¬ PreservesJitState attrs heap before after := by
  obtain ⟨fresh, rfl, placeIs, notEmpty, _⟩ := createCodeHeap_ok creates
  have freshAt : (start.modules ++ [fresh])[start.modules.length]? =
      some fresh := by
    simp
  obtain ⟨heap, located, samePlace⟩ :=
    KeepsView.exists_getElem? (keepsPlaces_run calls) freshAt
  rw [placeIs, CodeModule.place, Prod.mk.injEq, Prod.mk.injEq,
    Prod.mk.injEq] at samePlace
  obtain ⟨_, sizeIs, native, isHeap⟩ := samePlace
  refine ⟨heap, by simp [getCodeHeap, located, isHeap], fun preserves => ?_⟩
  obtain ⟨cfg, computed, _⟩ := genCfg_result generated
  have stored := native_store_mem cfg.tables
    (List.mem_of_getElem? located) native (sizeIs ▸ notEmpty)
  have firstByte : nativeWord / 256 ^ 0 % 256 = NPV := by decide
  refine preserves.noNativeMarker cfg computed _ stored 0 (by decide)
    ⟨Nat.le_refl _, ?_⟩ firstByte
  change heap.baseAddr < heap.baseAddr + heap.sz
  omega

namespace JitExample

/-- A verifier that accepts one-byte no-operations. -/
def nopVerifier : Verifier where
  dfa index := if index = 2 * 256 + 0x90 then 1 else 0
  start := 2
  dcall := 0
  icall := 0
  ijmp := 0
  jmpRel1 := 0
  jmpRel4 := 0
  jccRel1 := 0
  jccRel4 := 0
  mcficall := 0
  mcficheck := 0
  mcfiret := 0
  terminator := 1
  maxAccept := 1

/-- A process with one code heap. -/
def created : Rt Runtime :=
  createCodeHeap 8 0x400 pageSize (some nopVerifier) Runtime.boot

/-- The same process with an instruction in the heap. -/
def filled : Rt Runtime := do
  codeHeapFill 0 (some 0) 0x400000 [0x90] 9 (← created)

/-- The process after a generation. -/
def generated : Rt Runtime := do
  genCfg 0 (← filled)

/-- The three calls return. -/
theorem returns :
    ∃ first second third, created = .ok first ∧
      codeHeapFill 0 (some 0) 0x400000 [0x90] 9 first = .ok second ∧
      genCfg 0 second = .ok third := by
  have returned : generated.toOption.isSome = true := by
    decide +kernel
  cases all : generated with
  | error fault =>
      simp [all, Except.toOption] at returned
  | ok third =>
      unfold generated filled at all
      rw [bind_eq_ok] at all
      obtain ⟨second, fills, generates⟩ := all
      rw [bind_eq_ok] at fills
      obtain ⟨first, creates, fills⟩ := fills
      exact ⟨first, second, third, creates, fills, generates⟩

end JitExample

open JitExample in
/--
The instruction boundary of the heap is `DCV` before a generation and `NPV`
after it, and a word that was zero holds the marker everywhere.
-/
theorem jitState_overwritten :
    ∃ before after heap, filled = .ok before ∧ genCfg 0 before = .ok after ∧
      getCodeHeap (some 0) before.modules = .ok (0, heap) ∧
      before.table.load64 0x400008 = 0 ∧
      after.table.load64 0x400008 = nativeWord ∧
      ¬ PreservesJitState 0 heap before after := by
  have bytesBefore : filled.toOption.map (fun before =>
      (before.table 0x400000, before.table.load64 0x400008,
        (getCodeHeap (some 0) before.modules).toOption.map fun found =>
          (found.1, decide (found.2.Holds 0x400000)))) =
      some (UInt8.ofNat DCV, 0, some (0, true)) := by
    decide +kernel
  have bytesAfter : generated.toOption.map (fun after =>
      (after.table 0x400000, after.table.load64 0x400008)) =
      some (UInt8.ofNat NPV, nativeWord) := by
    decide +kernel
  obtain ⟨first, before, after, creates, fills, generates⟩ := returns
  have filledIs : filled = .ok before := by
    rw [filled, creates]
    exact fills
  have generatedIs : generated = .ok after := by
    rw [generated, filledIs]
    exact generates
  simp only [filledIs, Except.toOption, Option.map_some, Option.some.injEq,
    Prod.mk.injEq] at bytesBefore
  simp only [generatedIs, Except.toOption, Option.map_some, Option.some.injEq,
    Prod.mk.injEq] at bytesAfter
  obtain ⟨boundary, zero, heapFound⟩ := bytesBefore
  cases named : getCodeHeap (some 0) before.modules with
  | error fault =>
      simp [named] at heapFound
  | ok found =>
      simp only [named, Option.map_some, Option.some.injEq,
        Prod.mk.injEq, decide_eq_true_eq] at heapFound
      refine ⟨before, after, found.2, filledIs, generates,
        by rw [named, ← heapFound.1], zero, bytesAfter.2,
        fun preserves => ?_⟩
      have kept := preserves.boundaries 0x400000 heapFound.2 boundary
      rw [bytesAfter.1] at kept
      exact absurd kept (by decide)

open JitExample in
/-- The generation of that process does not keep the state of its heap. -/
theorem genCfg_loses_jitState_nop :
    ∃ before after heap, genCfg 0 before = .ok after ∧
      getCodeHeap (some 0) before.modules = .ok (0, heap) ∧
      ¬ PreservesJitState 0 heap before after := by
  obtain ⟨first, second, third, creates, fills, generates⟩ := returns
  have calls : Returns first second :=
    ⟨.fill 0 (some 0) 0x400000 [0x90] 9, fills⟩
  obtain ⟨heap, named, lost⟩ := genCfg_loses_jitState creates
    (Relation.ReflTransGen.single calls) generates
  exact ⟨second, third, heap, generates, named, lost⟩

end Mcfi
