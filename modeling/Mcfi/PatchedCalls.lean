import Mcfi.CodeHeap
import Mcfi.OnlinePatching
import Mcfi.RuntimeCalls

namespace Mcfi

open ByteMem LinkMap

/-!
# Call sites that are patched

A call site is patched to call `__patch_call`: a direct call keeps its opcode, and
an indirect one gets the call in place of the no-op before it.  From the return
address that such a call pushes `patch_call` computes the key of its record.
-/

section Sites

/-- A recorded return address, and whether it is that of an indirect call. -/
structure PatchSite where
  offset : Nat
  indirect : Bool
  deriving DecidableEq

/-- The call site of an entry of `ra_orig`. -/
def SavedRa.site (saved : SavedRa) : PatchSite :=
  ⟨saved.offset, saved.marked⟩

/-- The call site that a symbol records. -/
def CodeSymbol.patchSite? : CodeSymbol → Option PatchSite
  | .dcj _ offset => some ⟨offset, false⟩
  | .icj _ offset => some ⟨offset, true⟩
  | _ => none

/-- The no-op of five bytes. -/
def paddingNop : List UInt8 := [0x0f, 0x1f, 0x44, 0, 0]

/-- `call *reg` without its prefix ends at an address. -/
def RegisterCallEnds (code : ByteMem) (stop : Nat) : Prop :=
  code (stop - 2) = 0xff ∧ (code (stop - 1)).toNat / 8 = 0x1a

/-- The three encodings of a call that ends at its return address. -/
inductive CallShape (code : ByteMem) (offset : Nat) : Bool → Prop where
  | direct (opcode : code (offset - 5) = 0xe8) : CallShape code offset false
  | short
      (nop : readImage code (offset - 7) 5 = paddingNop)
      (call : RegisterCallEnds code offset) : CallShape code offset true
  | long
      (nop : readImage code (offset - 8) 5 = paddingNop)
      (rex : code (offset - 3) = 0x41)
      (call : RegisterCallEnds code offset) : CallShape code offset true

/--
The call sites of a module as the compiler emits them: of one of the encodings, with
return addresses that are aligned, inside of the module and recorded once.  The
compiler's code model keeps a module below two gigabytes.
-/
structure CallSites (code : ByteMem) (sz : Nat) (sites : List PatchSite) : Prop where
  shape : ∀ site ∈ sites, CallShape code site.offset site.indirect
  aligned : ∀ site ∈ sites, site.offset % 8 = 0
  inside : ∀ site ∈ sites, 8 ≤ site.offset ∧ site.offset < sz
  distinct : sites.Nodup ∧ (sites.map PatchSite.offset).Nodup
  small : sz ≤ 2 ^ 31

/-- The target of the direct call at an address. -/
def callTarget (code : ByteMem) (place : Nat) : Option Int :=
  if code place = 0xe8 then
    some (place + 5 + signed 32 (code.load (place + 1) 4))
  else
    none

/-- `patch_call`: the key of a return address, if it passes the test. -/
def trapKey (m : CodeModule) (patchpoint : Nat) : Option Nat :=
  if patchpoint % 8 = 0 ∨ (patchpoint + 3) % 8 = 0 ∨ (patchpoint + 2) % 8 = 0 then
    some ((roundUp8 patchpoint).addr - m.baseAddr)
  else
    none

/-- A call in the word of a site leads to the target, and its trap to the site. -/
structure TrapsBack (code : ByteMem) (target : Nat) (m : CodeModule)
    (sites : List PatchSite) (site : PatchSite) (place : Nat) : Prop where
  inWord : site.offset - 8 ≤ place ∧ place + 5 ≤ site.offset
  calls : callTarget code place = some (target : Int)
  holds : m.Holds (m.baseAddr + (place + 5))
  key : trapKey m (m.baseAddr + (place + 5)) = some site.offset
  only : ∀ other ∈ sites,
    trapKey m (m.baseAddr + (place + 5)) = some other.offset → other = site

end Sites

section Words

variable {target : Nat} {elf : ByteMem}

/-- A distance below two gigabytes is what the call adds. -/
theorem signed_callDistance
    {source : Nat} (near : target < 2 ^ 31) (here : source < 2 ^ 31) :
    signed 32 (callDistance target source) = (target : Int) - source := by
  unfold signed callDistance
  split <;> omega

/-- A patch depends on the word of its site only. -/
theorem patchCallSite_congr
    {saved : SavedRa} (low : 8 ≤ saved.offset) (small : saved.offset < 2 ^ 32)
    {other : ByteMem}
    (same : ∀ addr, saved.offset - 8 ≤ addr → addr < saved.offset →
      other addr = elf addr) {addr : Nat}
    (above : saved.offset - 8 ≤ addr) (below : addr < saved.offset) :
    patchCallSite target other saved addr = patchCallSite target elf saved addr := by
  unfold patchCallSite
  simp only [Nat.mod_eq_of_lt small, same (saved.offset - 8 + 5) (by omega) (by omega)]
  split <;> simp only [store, ByteMem.storeByte, same addr above below]

/-- The displacement that is stored makes the call lead to the target. -/
private theorem callTarget_store
    {code : ByteMem} {place : Nat} (near : target < 2 ^ 31) (here : place + 5 < 2 ^ 31)
    (opcode : code place = 0xe8)
    (bytes : ∀ k < 4, code (place + 1 + k) =
      (code.store (place + 1) 4 (callDistance target (place + 5))) (place + 1 + k)) :
    callTarget code place = some (target : Int) := by
  have small : callDistance target (place + 5) < 256 ^ 4 := by
    unfold callDistance
    exact Nat.mod_lt _ (by decide)
  have loaded : code.load (place + 1) 4 = callDistance target (place + 5) :=
    (load_congr bytes).trans (load_store_same code (place + 1) small)
  rw [callTarget, if_pos opcode, loaded, signed_callDistance near here]
  push_cast
  congr 1
  omega

/-- What is stored does not depend on the memory before. -/
private theorem store_inside
    (first second : ByteMem) (addr width value : Nat) {k : Nat} (below : k < width) :
    first.store addr width value (addr + k) = second.store addr width value (addr + k) := by
  simp only [store]
  rw [if_pos (by omega), if_pos (by omega)]

/-- The call that a patched site makes, and the return address that it pushes. -/
theorem patchCallSite_calls
    {saved : SavedRa} {after : ByteMem} (near : target < 2 ^ 31)
    (shape : CallShape elf saved.offset saved.marked)
    (low : 8 ≤ saved.offset) (small : saved.offset < 2 ^ 31)
    (patched : ∀ addr, saved.offset - 8 ≤ addr → addr < saved.offset →
      after addr = patchCallSite target elf saved addr) :
    ∃ place, (place + 5 = saved.offset ∨ place + 7 = saved.offset ∨
        place + 8 = saved.offset) ∧
      callTarget after place = some (target : Int) := by
  have narrow : saved.offset % 2 ^ 32 = saved.offset := Nat.mod_eq_of_lt (by omega)
  unfold patchCallSite at patched
  simp only [narrow] at patched
  rcases saved with ⟨offset, marked, word⟩
  simp only at shape low small patched
  cases shape with
  | direct opcode =>
      obtain ⟨place, rfl⟩ := Nat.exists_eq_add_of_le' (by omega : 5 ≤ offset)
      simp only [Nat.add_sub_cancel, Bool.false_eq_true, if_false] at opcode patched
      have start : place + 5 - 4 = place + 1 := by omega
      rw [start] at patched
      refine ⟨place, Or.inl rfl, callTarget_store near (by omega) ?_ fun k below => ?_⟩
      · rw [patched place (by omega) (by omega), store_other _ (by omega)]
        exact opcode
      · rw [patched (place + 1 + k) (by omega) (by omega)]
        exact store_inside _ _ _ _ _ below
  | short nop call =>
      obtain ⟨place, rfl⟩ := Nat.exists_eq_add_of_le' (by omega : 7 ≤ offset)
      rw [Nat.add_sub_cancel] at nop
      have last : elf (place + 7 - 8 + 5) = 0 := by
        have byte := congrArg (fun bytes => bytes[4]?) nop
        simp only [readImage, paddingNop] at byte
        rw [show place + 7 - 8 + 5 = place + 4 by omega]
        exact Option.some.inj byte
      simp only [if_true, last, ne_eq, not_true_eq_false, if_false] at patched
      rw [show place + 7 - 8 + 1 = place by omega,
        show place + 7 - 2 = place + 5 by omega] at patched
      refine ⟨place, Or.inr (Or.inl rfl),
        callTarget_store near (by omega) ?_ fun k below => ?_⟩
      · rw [patched place (by omega) (by omega), store_other _ (by omega)]
        exact if_pos rfl
      · rw [patched (place + 1 + k) (by omega) (by omega)]
        exact store_inside _ _ _ _ _ below
  | long nop rex call =>
      obtain ⟨place, rfl⟩ := Nat.exists_eq_add_of_le' low
      rw [show place + 8 - 3 = place + 5 by omega] at rex
      have register : elf (place + 8 - 8 + 5) ≠ 0 := by
        rw [Nat.add_sub_cancel, rex]
        decide
      simp only [if_true, register, ne_eq, not_false_eq_true] at patched
      rw [Nat.add_sub_cancel, Nat.add_zero,
        show place + 8 - 3 = place + 5 by omega] at patched
      refine ⟨place, Or.inr (Or.inr rfl),
        callTarget_store near (by omega) ?_ fun k below => ?_⟩
      · rw [patched place (le_refl _) (by omega), store_other _ (by omega)]
        exact if_pos rfl
      · rw [patched (place + 1 + k) (by omega) (by omega)]
        exact store_inside _ _ _ _ _ below

end Words

section Modules

variable {target : Nat} {elf : ByteMem} {raOrig : List SavedRa} {sz : Nat}

/-- Distinct aligned sites have words of their own. -/
private theorem words_apart
    (sites : CallSites elf sz (raOrig.map SavedRa.site)) {front back : List SavedRa}
    {saved other : SavedRa} (split : raOrig = front ++ saved :: back)
    (listed : other ∈ front ∨ other ∈ back) :
    other.offset + 8 ≤ saved.offset ∨ saved.offset + 8 ≤ other.offset := by
  have distinct := sites.distinct.2
  rw [List.map_map, split, List.map_append, List.map_cons] at distinct
  have different : other.offset ≠ saved.offset := by
    intro same
    rcases listed with inFront | inBack
    · exact List.disjoint_of_nodup_append distinct (List.mem_map_of_mem inFront)
        (List.mem_cons.mpr (Or.inl same))
    · have again : other.offset ∈ back.map (PatchSite.offset ∘ SavedRa.site) :=
        List.mem_map_of_mem inBack
      rw [same] at again
      exact (List.nodup_cons.mp (List.nodup_append.mp distinct).2.1).1 again
  have listedOther : other.site ∈ raOrig.map SavedRa.site := by
    rw [split]
    exact List.mem_map_of_mem (by simp; tauto)
  have listedSaved : saved.site ∈ raOrig.map SavedRa.site := by
    rw [split]
    exact List.mem_map_of_mem (by simp)
  have left : other.offset % 8 = 0 := sites.aligned _ listedOther
  have right : saved.offset % 8 = 0 := sites.aligned _ listedSaved
  omega

/-- After all sites are patched the word of one is as its own patch leaves it. -/
theorem patchCallSites_word
    (sites : CallSites elf sz (raOrig.map SavedRa.site)) {saved : SavedRa}
    (member : saved ∈ raOrig) {addr : Nat} (above : saved.offset - 8 ≤ addr)
    (below : addr < saved.offset) :
    patchCallSites (some target) raOrig elf addr =
      patchCallSite target elf saved addr := by
  obtain ⟨front, back, split⟩ := List.append_of_mem member
  have bounds : ∀ other ∈ raOrig, 8 ≤ other.offset ∧ other.offset < 2 ^ 32 := by
    intro other listed
    have inside := sites.inside other.site (List.mem_map_of_mem listed)
    have small := sites.small
    exact ⟨inside.1, Nat.lt_of_lt_of_le inside.2 (small.trans (by decide))⟩
  have frontBounds : ∀ other ∈ front, 8 ≤ other.offset ∧ other.offset < 2 ^ 32 :=
    fun other listed => bounds other (by rw [split]; exact List.mem_append_left _ listed)
  have backBounds : ∀ other ∈ back, 8 ≤ other.offset ∧ other.offset < 2 ^ 32 :=
    fun other listed => bounds other (by
      rw [split]
      exact List.mem_append_right _ (List.mem_cons_of_mem _ listed))
  have own := bounds saved member
  have shape : patchCallSites (some target) raOrig elf =
      patchCallSites (some target) back (patchCallSite target
        (patchCallSites (some target) front elf) saved) := by
    simp only [patchCallSites]
    rw [split, List.foldl_append, List.foldl_cons]
  have all : ∀ list : List SavedRa, findableRa (some target) list = list := fun _ => rfl
  rw [shape, patchCallSites_other]
  · refine patchCallSite_congr own.1 own.2 (fun addr above below => ?_) above below
    rw [patchCallSites_other]
    · rw [all]
      exact frontBounds
    · rw [all]
      intro other listed
      have apart := words_apart sites split (Or.inl listed)
      omega
  · rw [all]
    exact backBounds
  · rw [all]
    intro other listed
    have apart := words_apart sites split (Or.inr listed)
    omega

/-- The key of the return address that a patched call pushes. -/
theorem trapKey_of_place
    {m : CodeModule} {place offset : Nat} (aligned : offset % 8 = 0)
    (ends : place + 5 = offset ∨ place + 7 = offset ∨ place + 8 = offset) :
    trapKey m (m.baseAddr + (place + 5)) = some offset := by
  have base := m.baseAligned
  unfold pageSize at base
  have passes : (m.baseAddr + (place + 5)) % 8 = 0 ∨
      (m.baseAddr + (place + 5) + 3) % 8 = 0 ∨
      (m.baseAddr + (place + 5) + 2) % 8 = 0 := by
    omega
  rw [trapKey, if_pos passes]
  simp only [roundUp8]
  congr 1
  omega

/-- A trap that returns restores the word that is saved under its key. -/
theorem patchCall_trapKey
    {patchpoint : Nat} {runtime result : Runtime}
    (returned : patchCall patchpoint runtime = .ok result)
    (first : patchpoint ∉ runtime.patchedRa) :
    ∃ m key original, findModule runtime.modules patchpoint = some m ∧
      trapKey m patchpoint = some key ∧ m.raOrig.find key = some original ∧
      result.image = runtime.image.store64 ((roundUp8 patchpoint).addr - 8) original := by
  obtain ⟨m, located, ⟨known, -⟩ | ⟨original, -, saved, -, rfl⟩⟩ := patchCall_ok returned
  · exact absurd known first
  · refine ⟨m, _, original, located, if_pos ?_, saved, rfl⟩
    simp only [patchCall, located, bind_eq_ok, check_eq_ok, Bool.or_eq_true,
      beq_iff_eq] at returned
    obtain ⟨_, passes, _⟩ := returned
    omega

/-- Patching the call sites changes their words only, and each traps back. -/
theorem patchCallSites_trapBack
    (sites : CallSites elf sz (raOrig.map SavedRa.site)) (inModule : target < sz) :
    (∀ addr, (∀ site ∈ raOrig.map SavedRa.site,
        addr < site.offset - 8 ∨ site.offset ≤ addr) →
      patchCallSites (some target) raOrig elf addr = elf addr) ∧
    ∀ site ∈ raOrig.map SavedRa.site, ∀ m : CodeModule, m.sz = sz →
      ∃ place, TrapsBack (patchCallSites (some target) raOrig elf) target m
        (raOrig.map SavedRa.site) site place := by
  have small := sites.small
  constructor
  · intro addr outside
    refine patchCallSites_other (fun saved listed => ?_) fun saved listed => ?_
    · have inside := sites.inside saved.site (List.mem_map_of_mem listed)
      simp only [SavedRa.site] at inside
      omega
    · exact outside saved.site (List.mem_map_of_mem listed)
  · intro site listed m size
    obtain ⟨saved, member, rfl⟩ := List.mem_map.mp listed
    have inside : 8 ≤ saved.offset ∧ saved.offset < sz := sites.inside _ listed
    have aligned : saved.offset % 8 = 0 := sites.aligned _ listed
    have near : target < 2 ^ 31 := Nat.lt_of_lt_of_le inModule small
    have reached : saved.offset < 2 ^ 31 := Nat.lt_of_lt_of_le inside.2 small
    obtain ⟨place, ends, calls⟩ := patchCallSite_calls near
      (sites.shape _ listed) inside.1 reached
      fun addr above below => patchCallSites_word sites member above below
    have key := trapKey_of_place (m := m) aligned ends
    refine ⟨place, ⟨?_, calls, ?_, key, fun other otherListed otherKey => ?_⟩⟩
    · simp only [SavedRa.site]
      omega
    · constructor <;> omega
    · have same := Option.some.inj (key.symm.trans otherKey)
      exact List.inj_on_of_nodup_map sites.distinct.2 otherListed listed same.symm

end Modules

section Loaded

variable {file : ElfFile} {vtabletaken : KeySet Name}

/-- The entries of `ra_orig` are those of the symbols that record call sites. -/
theorem scan_sites
    {bidSlot : Nat} {scan : SymtabScan}
    (returned : file.symtab.foldlM (scanSymbol file.ctor vtabletaken)
      ⟨file.bytes, bidSlot, file.codeModule, [], ∅⟩ = .ok scan) :
    scan.raOrig.map SavedRa.site = file.symtab.filterMap CodeSymbol.patchSite? := by
  refine foldlM_invariant (fun done scan =>
    scan.raOrig.map SavedRa.site = done.filterMap CodeSymbol.patchSite?) rfl ?_ returned
  intro done symbol rest before after _ same step
  rw [List.filterMap_append, ← same]
  have added : ∀ (raOrig : List SavedRa) (saved : SavedRa),
      addRa before.raOrig saved = .ok raOrig →
        raOrig.map SavedRa.site = before.raOrig.map SavedRa.site ++ [saved.site] := by
    intro raOrig saved adds
    unfold addRa at adds
    rw [bind_eq_ok] at adds
    obtain ⟨_, _, adds⟩ := adds
    rw [pure_eq_ok] at adds
    rw [← adds, List.map_append, List.map_singleton]
  cases symbol with
  | dcj name offset =>
      simp only [scanSymbol, bind_eq_ok, pure_eq_ok] at step
      obtain ⟨raOrig, adds, rfl⟩ := step
      exact added _ _ adds
  | icj name offset =>
      simp only [scanSymbol, bind_eq_ok, pure_eq_ok] at step
      obtain ⟨raOrig, adds, rfl⟩ := step
      exact added _ _ adds
  | addrTaken name offset =>
      simp only [scanSymbol, bind_eq_ok, pure_eq_ok] at step
      obtain ⟨_, _, rfl⟩ := step
      exact (List.append_nil _).symm
  | landingPad function offset =>
      simp only [scanSymbol, pure_eq_ok] at step
      subst step
      exact (List.append_nil _).symm
  | bary name offset =>
      simp only [scanSymbol, pure_eq_ok] at step
      subst step
      exact (List.append_nil _).symm
  | function name offset =>
      simp only [scanSymbol] at step
      split at step
      next =>
        rw [pure_eq_ok] at step
        subst step
        exact (List.append_nil _).symm
      next =>
        split at step
        next =>
          simp only [bind_eq_ok, pure_eq_ok] at step
          obtain ⟨_, _, _, _, rfl⟩ := step
          exact (List.append_nil _).symm
        next =>
          rw [pure_eq_ok] at step
          subst step
          exact (List.append_nil _).symm

/--
Before entries are patched, the call sites of a module are patched in their own words
only, to calls of `__patch_call` that each trap back to their own record; an entry in
such a word restores the patched call.
-/
theorem call_sites_trap_back
    {patchCall patchEntry : Name} {bidSlot target : Nat} {loaded : LoadedElf}
    (returned : loadMcfiMetadata patchCall patchEntry vtabletaken bidSlot file =
      .ok loaded)
    (sites : CallSites loaded.original loaded.codeModule.sz
      (file.symtab.filterMap CodeSymbol.patchSite?))
    (found : lastOffset patchCall loaded.codeModule.funcsyms = some target)
    (inModule : target < loaded.codeModule.sz) :
    ∃ patched,
      loaded.patched = patchEntrySites (lastOffset patchEntry file.plt)
        loaded.codeModule.funcOrig patched ∧
      (∀ addr, (∀ site ∈ file.symtab.filterMap CodeSymbol.patchSite?,
          addr < site.offset - 8 ∨ site.offset ≤ addr) →
        patched addr = loaded.original addr) ∧
      ∀ site ∈ file.symtab.filterMap CodeSymbol.patchSite?,
        site.offset ∈ loaded.codeModule.raOrig ∧
        (∀ entry word, entry + 8 = site.offset →
          loaded.codeModule.funcOrig.find entry = some word →
            word = patched.load64 entry) ∧
        ∀ m : CodeModule, m.sz = loaded.codeModule.sz →
          ∃ place, TrapsBack patched target m
            (file.symtab.filterMap CodeSymbol.patchSite?) site place := by
  unfold loadMcfiMetadata at returned
  rw [bind_eq_ok] at returned
  obtain ⟨scan, scanned, returned⟩ := returned
  rw [pure_eq_ok] at returned
  subst returned
  simp only at found sites inModule ⊢
  have listed := scan_sites scanned
  rw [← listed] at sites ⊢
  obtain ⟨outside, traps⟩ := patchCallSites_trapBack sites inModule
  rw [found]
  refine ⟨patchCallSites (some target) scan.raOrig scan.elf, rfl, outside,
    fun site member => ⟨?_, fun entry word behind saved => ?_, traps site member⟩⟩
  · obtain ⟨saved, inScan, rfl⟩ := List.mem_map.mp member
    exact mem_insertAll.mpr (Or.inr ⟨saved, inScan, rfl⟩)
  · obtain ⟨ra, inScan, rfl⟩ := List.mem_map.mp member
    have known : (findableRa (some target) scan.raOrig).any
        (fun other => other.offset = entry + 8) = true :=
      List.any_eq_true.mpr ⟨ra, inScan, decide_eq_true behind.symm⟩
    rw [find_orderPatches, if_pos known] at saved
    obtain ⟨_, _, isWord⟩ := Option.map_eq_some_iff.mp saved
    exact isWord.symm

/-- A direct call and one of each indirect encoding. -/
def threeCalls : ElfFile where
  sections := { allocCodeModule with
    baseAddr := 0x400000
    sz := 0x1000
    instrumented := true
    baseAligned := programBase_aligned
    sizeAligned := page_aligned }
  ctor := ∅
  symtab := [.dcj (Name.ofPtr 16) 16, .icj (Name.ofPtr 16) 24, .icj (Name.ofPtr 32) 32]
  plt := [⟨Name.ofPtr 48, 0x100⟩]
  bytes := ByteMem.storeBytes (fun _ => 0x90) 11
    ([0xe8, 0, 0, 0, 0, 0x90] ++ paddingNop ++ [0xff, 0xd0] ++ paddingNop ++
      [0x41, 0xff, 0xd3])

/-- The module as it is prepared. -/
def threeLoaded : LoadedElf :=
  (loadMcfiMetadata (Name.ofPtr 48) (Name.ofPtr 64) ∅ bidSlotStart
    threeCalls).toOption.get rfl

theorem sites_three :
    CallSites threeLoaded.original threeLoaded.codeModule.sz
      (threeCalls.symtab.filterMap CodeSymbol.patchSite?) where
  shape := by
    intro site listed
    rcases List.mem_cons.mp listed with rfl | listed
    · exact .direct rfl
    rcases List.mem_cons.mp listed with rfl | listed
    · exact .short rfl ⟨rfl, rfl⟩
    cases List.mem_singleton.mp listed
    exact .long rfl rfl ⟨rfl, rfl⟩
  aligned := by decide
  inside := by decide
  distinct := by decide
  small := by decide

/-- The indirect call of two bytes traps back. -/
theorem call_sites_trap_back_three :
    ∃ patched place, TrapsBack patched 0x100 threeLoaded.codeModule
      (threeCalls.symtab.filterMap CodeSymbol.patchSite?) ⟨24, true⟩ place := by
  have prepared : loadMcfiMetadata (Name.ofPtr 48) (Name.ofPtr 64) ∅ bidSlotStart
      threeCalls = .ok threeLoaded := rfl
  obtain ⟨patched, -, -, traps⟩ :=
    call_sites_trap_back prepared sites_three (rfl : _ = some 0x100) (by decide)
  exact ⟨patched, (traps ⟨24, true⟩ (by decide)).2.2 threeLoaded.codeModule rfl⟩

end Loaded

end Mcfi
