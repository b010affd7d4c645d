import Mcfi.JitVerifier
import Mcfi.RuntimeCalls

namespace Mcfi

open ByteMem LinkMap

/-!
# Unregistering symbols of a code heap

The three unregistering types of `reg_cfg_metadata` remove the symbols of one list
that have a name or an address, and clear the word of the address.  The case of
function symbols ends without a `break`, so it takes the return addresses of its
address with it.
-/

section Calls

/-- The calls that unregister a symbol. -/
inductive Unregistration where
  | icjSym (name : Name)
  | funcSym (addr : Nat)
  | rai (addr : Nat)
  deriving DecidableEq

/-- The type and the arguments of the call. -/
def Unregistration.metadata : Unregistration → CfgMetadata
  | .icjSym name => .icjSymUnreg name
  | .funcSym addr => .funcSymUnreg addr
  | .rai addr => .raiUnreg addr

/-- The calls that register what a call unregisters. -/
inductive Unregistration.Registers : Unregistration → CfgMetadata → Prop where
  | icjSym {name : Name} {addr : Nat} :
      Registers (.icjSym name) (.icjSym name addr)
  | funcSym {addr source : Nat} : Registers (.funcSym addr) (.funcSym addr source)
  | rai {name : Name} {addr : Nat} : Registers (.rai addr) (.rai name addr)

variable (call : Unregistration) (m : CodeModule)

/-- The branches that the call names. -/
def Unregistration.namesIcf (s : Symbol) : Bool :=
  match call with
  | .icjSym name => name = s.name
  | _ => false

/-- The functions that the call names. -/
def Unregistration.namesFunc (s : Symbol) : Bool :=
  match call with
  | .funcSym addr => s.offset = addr - m.baseAddr
  | _ => false

/-- The return addresses that the call names. -/
def Unregistration.namesRai (s : Symbol) : Bool :=
  match call with
  | .rai addr => s.offset = addr - m.baseAddr
  | _ => false

/-- A heap without the symbols that the call names. -/
def Unregistration.remove : CodeModule :=
  { m with
    icfsyms := m.icfsyms.filter fun s => !call.namesIcf s
    funcsyms := m.funcsyms.filter fun s => !call.namesFunc m s
    rai := m.rai.filter fun s => !call.namesRai m s }

/-- A byte of the word that the call is to clear. -/
def Unregistration.Clears (query : Nat) : Prop :=
  match call with
  | .icjSym _ => False
  | .funcSym addr => addr ≤ query ∧ query < addr + 8
  | .rai addr => addr ≤ query ∧ query < addr + 8

/-- No symbol of the heap is one that the call names. -/
structure Unregistration.Fresh : Prop where
  icfsyms : ∀ s ∈ m.icfsyms, call.namesIcf s = false
  funcsyms : ∀ s ∈ m.funcsyms, call.namesFunc m s = false
  rai : ∀ s ∈ m.rai, call.namesRai m s = false

/-- The call undoes exactly what registering its symbol does. -/
structure Unregistration.UndoesOwn
    (handle : Option Nat) (runtime : Runtime) (index : Nat) : Prop where
  lists : ∀ after, regCfgMetadata handle call.metadata runtime = .ok after →
    after.modules = runtime.modules.set index (call.remove m)
  cleared : ∀ after, regCfgMetadata handle call.metadata runtime = .ok after →
    ∀ query, call.Clears query → after.table query = 0
  kept : ∀ after, regCfgMetadata handle call.metadata runtime = .ok after →
    ∀ query, ¬ call.Clears query → after.table query = runtime.table query
  restores : ∀ registration between after,
    call.Registers registration → call.Fresh m →
    regCfgMetadata handle registration runtime = .ok between →
    regCfgMetadata handle call.metadata between = .ok after →
      ∃ restored, after.modules[index]? = some restored ∧
        restored.icfsyms = m.icfsyms ∧ restored.funcsyms = m.funcsyms ∧
        restored.rai = m.rai

/-- A function is unregistered where the heap has a return address. -/
def Unregistration.TakesReturns : Prop :=
  ∃ addr, call = .funcSym addr ∧ m.Holds addr ∧ addr % 8 = 0 ∧
    ∃ s ∈ m.rai, s.offset = addr - m.baseAddr

end Calls

section Effects

variable {call : Unregistration} {m : CodeModule} {runtime after : Runtime}
  {handle : Option Nat} {index : Nat}

/-- The cases of a returned call. -/
theorem Unregistration.returned_cases
    (heap : getCodeHeap handle runtime.modules = .ok (index, m))
    (returned : regCfgMetadata handle call.metadata runtime = .ok after) :
    after.modules = runtime.modules.set index
        { call.remove m with
          rai := m.rai.filter fun s =>
            !(call.namesFunc m s || call.namesRai m s) } ∧
      (∀ query, call.Clears query → after.table query = 0) ∧
      ∀ query, ¬ call.Clears query → after.table query = runtime.table query := by
  obtain ⟨_, _, handleRuns, step⟩ := regCfgMetadata_cases returned
  rw [heap] at handleRuns
  cases handleRuns
  have zeroed : ∀ (mem : ByteMem) (addr query : Nat),
      addr ≤ query ∧ query < addr + 8 → mem.store64 addr 0 query = 0 := by
    rintro mem addr query ⟨low, high⟩
    obtain ⟨k, rfl⟩ := Nat.exists_eq_add_of_le low
    have byte := store64_byte mem addr 0 (Nat.add_lt_add_iff_left.mp high)
    rw [Nat.zero_div] at byte
    exact UInt8.toNat_inj.mp byte
  have outside : ∀ (mem : ByteMem) (addr query : Nat),
      ¬ (addr ≤ query ∧ query < addr + 8) →
        mem.store64 addr 0 query = mem query :=
    fun mem addr query other => store64_other mem (by omega)
  cases call with
  | icjSym name =>
      cases step with
      | icjSymUnreg =>
          refine ⟨?_, fun _ never => never.elim, fun _ _ => rfl⟩
          simp [Runtime.setModule, Unregistration.remove, Unregistration.namesIcf,
            Unregistration.namesFunc, Unregistration.namesRai]
  | funcSym addr =>
      cases step with
      | funcSymUnreg =>
          refine ⟨?_, fun query inside => zeroed _ addr query inside,
            fun query other => ?_⟩
          · simp [Runtime.setModule, Unregistration.remove, Unregistration.namesIcf,
              Unregistration.namesFunc, Unregistration.namesRai]
          · exact (outside _ addr query other).trans (outside _ addr query other)
  | rai addr =>
      cases step with
      | raiUnreg =>
          refine ⟨?_, fun query inside => zeroed _ addr query inside,
            fun query other => outside _ addr query other⟩
          simp [Runtime.setModule, Unregistration.remove, Unregistration.namesIcf,
            Unregistration.namesFunc, Unregistration.namesRai]

/-- A call that names an aligned address of the heap returns. -/
theorem Unregistration.funcSym_returns
    {addr : Nat} (heap : getCodeHeap handle runtime.modules = .ok (index, m))
    (holds : m.Holds addr) (aligned : addr % 8 = 0) :
    ∃ after, regCfgMetadata handle (.funcSymUnreg addr) runtime = .ok after := by
  have fits : ¬ (¬ m.Holds addr ∨ addr % 8 ≠ 0) := by
    rintro (outside | odd)
    · exact outside holds
    · exact odd aligned
  unfold regCfgMetadata
  rw [heap]
  unfold regFuncSymUnreg regRaiUnreg
  exact ⟨_, (if_neg fits).trans (if_neg fits)⟩

/-- A handle still names its heap when the heap is replaced. -/
theorem getCodeHeap_set
    {modules : List CodeModule} {heap : CodeModule}
    (named : getCodeHeap handle modules = .ok (index, m))
    (isHeap : heap.codeHeap = true) :
    getCodeHeap handle (modules.set index heap) = .ok (index, heap) := by
  have located := (getCodeHeap_ok named).1
  unfold getCodeHeap at named ⊢
  split at named
  next => cases named
  next place =>
    split at named
    next found there =>
      split at named
      next =>
        cases named
        have inside := (List.getElem?_eq_some_iff.mp located).1
        rw [List.getElem?_set_self inside]
        simp only [isHeap, if_true]
      next => cases named
    next => cases named

/-- What registering a symbol does to the heap. -/
theorem Unregistration.Registers.modules
    {registration : CfgMetadata} (registers : call.Registers registration)
    (heap : getCodeHeap handle runtime.modules = .ok (index, m))
    (returned : regCfgMetadata handle registration runtime = .ok after) :
    ∃ grown, after.modules = runtime.modules.set index grown ∧
      grown.codeHeap = m.codeHeap ∧ grown.baseAddr = m.baseAddr ∧
      grown.sz = m.sz ∧ ∃ s : Symbol,
        (grown.icfsyms = m.icfsyms ∨
          grown.icfsyms = m.icfsyms ++ [s] ∧ call.namesIcf s = true) ∧
        (grown.funcsyms = m.funcsyms ∨
          grown.funcsyms = m.funcsyms ++ [s] ∧ call.namesFunc m s = true) ∧
        (grown.rai = m.rai ∨
          grown.rai = m.rai ++ [s] ∧ call.namesRai m s = true) := by
  obtain ⟨_, _, handleRuns, step⟩ := regCfgMetadata_cases returned
  rw [heap] at handleRuns
  cases handleRuns
  cases registers with
  | icjSym =>
      cases step with
      | icjSymCached =>
          exact ⟨_, rfl, rfl, rfl, rfl, ⟨_, _⟩,
            Or.inr ⟨rfl, decide_eq_true rfl⟩, Or.inl rfl, Or.inl rfl⟩
      | icjSymFresh =>
          exact ⟨_, rfl, rfl, rfl, rfl, ⟨_, _⟩,
            Or.inr ⟨rfl, decide_eq_true rfl⟩, Or.inl rfl, Or.inl rfl⟩
  | funcSym =>
      cases step with
      | funcSym =>
          exact ⟨_, rfl, rfl, rfl, rfl, ⟨_, _⟩,
            Or.inl rfl, Or.inr ⟨rfl, decide_eq_true rfl⟩, Or.inl rfl⟩
  | rai =>
      cases step with
      | rai =>
          exact ⟨_, rfl, rfl, rfl, rfl, ⟨_, _⟩,
            Or.inl rfl, Or.inl rfl, Or.inr ⟨rfl, decide_eq_true rfl⟩⟩

/-- The address of a function that is unregistered is an aligned one of the heap. -/
theorem Unregistration.funcSym_fits
    {addr : Nat} (heap : getCodeHeap handle runtime.modules = .ok (index, m))
    (returned : regCfgMetadata handle (.funcSymUnreg addr) runtime = .ok after) :
    m.Holds addr ∧ addr % 8 = 0 := by
  obtain ⟨_, _, handleRuns, step⟩ := regCfgMetadata_cases returned
  rw [heap] at handleRuns
  cases handleRuns
  cases step with
  | funcSymUnreg holds aligned => exact ⟨holds, aligned⟩

/-- Unless a function is unregistered there, no return address is named. -/
theorem Unregistration.rai_spared
    (spares : ¬ call.TakesReturns m)
    (fits : ∀ addr, call = .funcSym addr → m.Holds addr ∧ addr % 8 = 0)
    {s : Symbol} (member : s ∈ m.rai) : call.namesFunc m s = false := by
  cases call with
  | icjSym => rfl
  | rai => rfl
  | funcSym addr =>
      obtain ⟨holds, aligned⟩ := fits addr rfl
      refine decide_eq_false fun here => spares ?_
      exact ⟨addr, rfl, holds, aligned, s, member, here⟩

/-- Filtering takes the appended symbol away again. -/
private theorem filter_restores
    (names : Symbol → Bool) {s : Symbol} {before grown : List Symbol}
    (fresh : ∀ old ∈ before, names old = false)
    (shape : grown = before ∨ grown = before ++ [s] ∧ names s = true) :
    (grown.filter fun old => !names old) = before := by
  have kept : (before.filter fun old => !names old) = before :=
    List.filter_eq_self.mpr fun old member => by rw [fresh old member]; rfl
  rcases shape with rfl | ⟨rfl, named⟩
  · exact kept
  · rw [List.filter_append, kept, List.filter_cons_of_neg (by simp [named]),
      List.filter_nil, List.append_nil]

/-- A call that takes no return addresses with it undoes its registration. -/
theorem Unregistration.undoesOwn
    (heap : getCodeHeap handle runtime.modules = .ok (index, m))
    (spares : ¬ call.TakesReturns m) :
    call.UndoesOwn m handle runtime index := by
  refine ⟨fun after returned => ?_, fun after returned => ?_, fun after returned => ?_,
    fun registration between after registers fresh registered returned => ?_⟩
  · rw [(returned_cases heap returned).1]
    refine congrArg (fun rai => runtime.modules.set index { call.remove m with rai := rai })
      (List.filter_congr fun s member => ?_)
    rw [rai_spared spares (fun addr isFunc => ?_) member, Bool.false_or]
    subst isFunc
    exact funcSym_fits heap returned
  · exact (returned_cases heap returned).2.1
  · exact (returned_cases heap returned).2.2
  · obtain ⟨grown, modules, isHeap, base, size, s, icfsyms, funcsyms, rai⟩ :=
      registers.modules heap registered
    have grownHeap : getCodeHeap handle between.modules = .ok (index, grown) := by
      rw [modules]
      exact getCodeHeap_set heap (isHeap.trans (getCodeHeap_ok heap).2)
    have namesFunc_same : call.namesFunc grown = call.namesFunc m := by
      funext old
      cases call <;> simp [namesFunc, base]
    have namesRai_same : call.namesRai grown = call.namesRai m := by
      funext old
      cases call <;> simp [namesRai, base]
    have inside := (List.getElem?_eq_some_iff.mp (getCodeHeap_ok grownHeap).1).1
    rw [(returned_cases grownHeap returned).1, List.getElem?_set_self inside]
    refine ⟨_, rfl, filter_restores _ fresh.icfsyms icfsyms, ?_, ?_⟩
    · simp only [remove, namesFunc_same]
      exact filter_restores _ fresh.funcsyms funcsyms
    · simp only [namesFunc_same, namesRai_same]
      refine filter_restores (fun old => call.namesFunc m old || call.namesRai m old)
        (fun old member => ?_) (rai.imp id fun new => ⟨new.1, by simp [new.2]⟩)
      rw [rai_spared spares (fun addr isFunc => ?_) member, fresh.rai old member]
      · rfl
      · subst isFunc
        have fits := funcSym_fits grownHeap returned
        rw [CodeModule.Holds, base, size] at fits
        exact fits

/--
A call undoes exactly its own registration unless it unregisters a function where a
return address of the heap is registered.
-/
theorem unregistration_exact_iff
    (call : Unregistration) (handle : Option Nat) (runtime : Runtime) :
    (∀ index m, getCodeHeap handle runtime.modules = .ok (index, m) →
      call.UndoesOwn m handle runtime index) ↔
    ∀ index m, getCodeHeap handle runtime.modules = .ok (index, m) →
      ¬ call.TakesReturns m := by
  constructor
  · rintro undoes index m heap ⟨addr, rfl, holds, aligned, s, member, here⟩
    obtain ⟨after, returned⟩ := Unregistration.funcSym_returns heap holds aligned
    have spared := (undoes index m heap).lists after returned
    have taken : after.modules = _ :=
      (@Unregistration.returned_cases (.funcSym addr) _ _ _ _ _ heap returned).1
    rw [spared] at taken
    have inside := (List.getElem?_eq_some_iff.mp (getCodeHeap_ok heap).1).1
    have same := congrArg (fun modules => modules[index]?.map CodeModule.rai) taken
    simp only [List.getElem?_set_self inside, Option.map_some, Option.some.injEq,
      Unregistration.remove] at same
    have kept : s ∈ m.rai.filter fun s => !Unregistration.namesRai (.funcSym addr) m s :=
      List.mem_filter.mpr ⟨member, rfl⟩
    rw [same, List.mem_filter] at kept
    simp [Unregistration.namesFunc, here] at kept
  · exact fun spares index m heap => Unregistration.undoesOwn heap (spares index m heap)

/-- A heap where a function begins at the return address of a call. -/
def sharedPlace : Runtime :=
  { Runtime.boot with
    modules := [{ exampleHeap (spreadVerifier fun _ => 0) with
      funcsyms := [⟨Name.ofPtr 8, 16⟩]
      rai := [⟨Name.ofPtr 16, 16⟩] }] }

/-- Unregistering the function there takes the return address with it. -/
theorem unregistration_takes_more :
    ¬ ∀ (call : Unregistration) (handle : Option Nat) (runtime : Runtime) (index : Nat)
      (m : CodeModule), getCodeHeap handle runtime.modules = .ok (index, m) →
        call.UndoesOwn m handle runtime index := by
  intro undoes
  have lists := (undoes (.funcSym 0x400010) (some 0) sharedPlace 0 _ rfl).lists _ rfl
  have same := congrArg (fun modules => (modules.map CodeModule.rai).flatten.length) lists
  exact absurd same (by decide)

end Effects

end Mcfi
