import Mcfi.Metadata

namespace Mcfi

open LinkMap ByteMem

/-!
# Binding `.got.plt` slots

`set_gotplt` binds a slot to a function that the tables of the function's module record
under the name of the slot.  One loop over the modules looks for the slot and for the
function.  It goes on after it has found the function, with the offset in place of the
address, so that a later module that has the offset overwrites what was found.
-/

/-- What `load_mcfi_metadata` records of a module for the binding of slots. -/
structure PltModule where
  codeModule : CodeModule
  weakfuncs : LinkMap Nat Name
  gpfuncs : OrdDict Nat Name

namespace PltModule

/-- An address lies in the `.got.plt` of a module. -/
def GotHolds (plt : PltModule) (addr : Nat) : Prop :=
  plt.codeModule.gotplt ≤ addr ∧
    addr < plt.codeModule.gotplt + plt.codeModule.gotpltsz

instance (plt : PltModule) (addr : Nat) : Decidable (plt.GotHolds addr) :=
  inferInstanceAs (Decidable (_ ∧ _))

/-- An address lies in the range of a module. -/
abbrev Holds (plt : PltModule) (addr : Nat) : Prop :=
  plt.codeModule.Holds addr

/-- The names recorded for an offset: those of `dynfuncs`, else those of `weakfuncs`. -/
def names (plt : PltModule) (offset : Nat) : Option (KeySet Name) :=
  (dictFind plt.codeModule.dynfuncs offset).or (dictFind plt.weakfuncs offset)

end PltModule

/-- The variables of the loop of `set_gotplt`. -/
structure GotSearch where
  funcAddr : Nat
  am : Option PltModule
  fnl : Option (KeySet Name)
  foundv : Bool

/-- The body of the loop of `set_gotplt`. -/
def GotSearch.step (addr : Nat) (search : GotSearch) (plt : PltModule) : GotSearch :=
  let am := if plt.GotHolds addr then some plt else search.am
  if plt.Holds search.funcAddr then
    let funcAddr := search.funcAddr - plt.codeModule.baseAddr
    match dictFind plt.codeModule.dynfuncs funcAddr with
    | some names => ⟨funcAddr, am, some names, true⟩
    | none =>
        match dictFind plt.weakfuncs funcAddr with
        | some names => ⟨funcAddr, am, some names, true⟩
        | none => ⟨funcAddr, am, none, search.foundv⟩
  else
    { search with am := am }

/--
`set_gotplt`.  A slot of an instrumented module is written through the view of its page
outside the sandbox.
-/
def setGotplt (addr v : Nat) (modules : List PltModule) (image : ByteMem) :
    Rt ByteMem :=
  let search := modules.foldl (GotSearch.step addr) ⟨v, none, none, false⟩
  match search.am with
  | none => .error (.quit "[set_gotplt] illegal address\n")
  | some am =>
      if !search.foundv then
        .error (.quit "[set_gotplt] illegal value\n")
      else
        match dictFind am.gpfuncs (addr - am.codeModule.gotplt) with
        | none => .error (.quit "[set_gotplt] invalid addr\n")
        | some gpf =>
            match search.fnl with
            | none => .error (.nullDeref "set_gotplt")
            | some names =>
                if dictIn names gpf then
                  .ok (image.store64 addr v)
                else
                  .error (.quit "[set_gotplt] %s not found\n")

section Specification

/-- A set of names that a search may have found has a name. -/
def Offers (found : Option (KeySet Name)) (name : Name) : Prop :=
  ∃ names, found = some names ∧ name ∈ names

instance (found : Option (KeySet Name)) (name : Name) : Decidable (Offers found name) :=
  match found with
  | none => .isFalse (by rintro ⟨_, never, _⟩; cases never)
  | some names =>
      decidable_of_iff (name ∈ names)
        ⟨fun present => ⟨names, rfl, present⟩,
          by rintro ⟨_, same, present⟩; cases same; exact present⟩

/-- The address is a registered slot of a module, for a function of this name. -/
def SlotFor (modules : List PltModule) (addr : Nat) (name : Name) : Prop :=
  ∃ am ∈ modules, am.GotHolds addr ∧
    am.gpfuncs.find (addr - am.codeModule.gotplt) = some name

/-- The module that has an address records it under a name. -/
def RecordedUnder (modules : List PltModule) (v : Nat) (name : Name) : Prop :=
  ∃ m ∈ modules, m.Holds v ∧ Offers (m.names (v - m.codeModule.baseAddr)) name

/-- A slot may be bound to the functions recorded under its name, and to no others. -/
def BindsExactly (modules : List PltModule) (addr v : Nat) : Prop :=
  ∀ image : ByteMem,
    ((∃ name, SlotFor modules addr name ∧ RecordedUnder modules v name) →
      setGotplt addr v modules image = .ok (image.store64 addr v)) ∧
    (¬ (∃ name, SlotFor modules addr name ∧ RecordedUnder modules v name) →
      ∀ after, setGotplt addr v modules image ≠ .ok after)

/-- Modules apart from each other, as are their `.got.plt` ranges. -/
structure PltApart (first second : PltModule) : Prop where
  ranges : ∀ addr, ¬ (first.Holds addr ∧ second.Holds addr)
  slots : ∀ addr, ¬ (first.GotHolds addr ∧ second.GotHolds addr)

instance : Std.Symm PltApart where
  symm _ _ apart :=
    ⟨fun addr both => apart.ranges addr both.symm,
      fun addr both => apart.slots addr both.symm⟩

/--
What the loop ends with when it looks for a value in a list of modules: nothing when no
module has it, else the names in the last module that has what is left of it.
-/
def lastNames (modules : List PltModule) (funcAddr : Nat) :
    Option (Option (KeySet Name)) :=
  match modules with
  | [] => none
  | plt :: rest =>
      if plt.Holds funcAddr then
        (lastNames rest (funcAddr - plt.codeModule.baseAddr)).or
          (some (plt.names (funcAddr - plt.codeModule.baseAddr)))
      else
        lastNames rest funcAddr

/--
The slot is registered, and behind the module that has the address there is one that
has its offset, such that the search for the offset there and the module itself
disagree on the name of the slot.
-/
def Misled (modules : List PltModule) (addr v : Nat) : Prop :=
  ∃ name, SlotFor modules addr name ∧
    ∃ front m back, modules = front ++ m :: back ∧ m.Holds v ∧
      ∃ later, lastNames back (v - m.codeModule.baseAddr) = some later ∧
        ¬ (Offers later name ↔ Offers (m.names (v - m.codeModule.baseAddr)) name)

end Specification

section Searching

variable {modules : List PltModule} {addr v : Nat}

/-- One round of the loop, for a module that has the value and for another one. -/
theorem step_eq (search : GotSearch) (plt : PltModule) :
    search.step addr plt =
      if plt.Holds search.funcAddr then
        { funcAddr := search.funcAddr - plt.codeModule.baseAddr
          am := if plt.GotHolds addr then some plt else search.am
          fnl := plt.names (search.funcAddr - plt.codeModule.baseAddr)
          foundv := (plt.names (search.funcAddr - plt.codeModule.baseAddr)).isSome ||
            search.foundv }
      else
        { search with am := if plt.GotHolds addr then some plt else search.am } := by
  unfold GotSearch.step PltModule.names
  by_cases holds : plt.Holds search.funcAddr
  · simp only [if_pos holds]
    cases dictFind plt.codeModule.dynfuncs
        (search.funcAddr - plt.codeModule.baseAddr) with
    | some names => rfl
    | none =>
        cases dictFind plt.weakfuncs
            (search.funcAddr - plt.codeModule.baseAddr) <;> rfl
  · simp only [if_neg holds]

/-- The names in which the loop ends. -/
theorem fnl_foldl (search : GotSearch) :
    (modules.foldl (GotSearch.step addr) search).fnl =
      (lastNames modules search.funcAddr).getD search.fnl := by
  induction modules generalizing search with
  | nil => rfl
  | cons plt rest inductionHypothesis =>
      rw [List.foldl_cons, inductionHypothesis, lastNames, step_eq]
      by_cases holds : plt.Holds search.funcAddr
      · simp only [if_pos holds]
        cases lastNames rest (search.funcAddr - plt.codeModule.baseAddr) <;> rfl
      · simp only [if_neg holds]

/-- When the loop ends with names it has noticed that it found some. -/
theorem foundv_foldl {search : GotSearch}
    (before : search.fnl.isSome = true → search.foundv = true) :
    (modules.foldl (GotSearch.step addr) search).fnl.isSome = true →
      (modules.foldl (GotSearch.step addr) search).foundv = true := by
  induction modules generalizing search with
  | nil => exact before
  | cons plt rest inductionHypothesis =>
      rw [List.foldl_cons, step_eq]
      apply inductionHypothesis
      split
      next => exact fun found => by rw [found, Bool.true_or]
      next => exact before

/-- The module in which the loop finds the slot: the last one that has it. -/
theorem am_foldl (search : GotSearch) :
    (modules.foldl (GotSearch.step addr) search).am =
      (modules.reverse.find? fun plt => plt.GotHolds addr).or search.am := by
  induction modules generalizing search with
  | nil => rfl
  | cons plt rest inductionHypothesis =>
      have amIs : (search.step addr plt).am =
          if plt.GotHolds addr then some plt else search.am := by
        rw [step_eq]
        split <;> rfl
      rw [List.foldl_cons, inductionHypothesis, amIs, List.reverse_cons,
        List.find?_append, Option.or_assoc]
      congr 1
      by_cases holds : plt.GotHolds addr <;> simp [holds]

/-- The loop finds the slot in the one module that has it. -/
theorem find_slot (apart : modules.Pairwise PltApart) {am : PltModule} :
    modules.reverse.find? (fun plt => decide (plt.GotHolds addr)) = some am ↔
      am ∈ modules ∧ am.GotHolds addr := by
  have facts : ∀ {other : PltModule},
      modules.reverse.find? (fun plt => decide (plt.GotHolds addr)) = some other →
        other ∈ modules ∧ other.GotHolds addr := by
    intro other found
    refine ⟨List.mem_reverse.mp (List.mem_of_find?_eq_some found), ?_⟩
    simpa using List.find?_some found
  constructor
  · exact facts
  · rintro ⟨listed, holds⟩
    have present : (modules.reverse.find?
        fun plt => decide (plt.GotHolds addr)).isSome = true := by
      rw [List.find?_isSome]
      exact ⟨am, List.mem_reverse.mpr listed, decide_eq_true holds⟩
    obtain ⟨other, found⟩ := Option.isSome_iff_exists.mp present
    obtain ⟨otherListed, otherHolds⟩ := facts found
    have same : other = am := by
      by_contra different
      exact (apart.forall otherListed listed different).slots addr
        ⟨otherHolds, holds⟩
    rw [found, same]

/-- The search passes the modules that do not have the value. -/
theorem lastNames_append {front : List PltModule} {m : PltModule}
    {back : List PltModule} (outside : ∀ other ∈ front, ¬ other.Holds v)
    (holds : m.Holds v) :
    lastNames (front ++ m :: back) v =
      (lastNames back (v - m.codeModule.baseAddr)).or
        (some (m.names (v - m.codeModule.baseAddr))) := by
  induction front with
  | nil => rw [List.nil_append, lastNames, if_pos holds]
  | cons head rest inductionHypothesis =>
      rw [List.cons_append, lastNames, if_neg (outside head List.mem_cons_self)]
      exact inductionHypothesis fun other listed =>
        outside other (List.mem_cons_of_mem _ listed)

/-- The search finds nothing when no module has the value. -/
theorem lastNames_eq_none (outside : ∀ other ∈ modules, ¬ other.Holds v) :
    lastNames modules v = none := by
  induction modules with
  | nil => rfl
  | cons head rest inductionHypothesis =>
      rw [lastNames, if_neg (outside head List.mem_cons_self)]
      exact inductionHypothesis fun other listed =>
        outside other (List.mem_cons_of_mem _ listed)

/-- `set_gotplt` stores when the slot's name is among the names it ends with. -/
theorem setGotplt_eq_ok (apart : modules.Pairwise PltApart) {image after : ByteMem} :
    setGotplt addr v modules image = .ok after ↔
      (∃ name, SlotFor modules addr name ∧
        Offers ((lastNames modules v).getD none) name) ∧
        image.store64 addr v = after := by
  have fnlIs : (modules.foldl (GotSearch.step addr) ⟨v, none, none, false⟩).fnl =
      (lastNames modules v).getD none := fnl_foldl _
  have noticed : (modules.foldl (GotSearch.step addr)
      ⟨v, none, none, false⟩).fnl.isSome = true →
        (modules.foldl (GotSearch.step addr) ⟨v, none, none, false⟩).foundv = true :=
    foundv_foldl fun never => nomatch never
  have amIs : ∀ am, (modules.foldl (GotSearch.step addr)
      ⟨v, none, none, false⟩).am = some am ↔ am ∈ modules ∧ am.GotHolds addr := by
    intro am
    rw [am_foldl, Option.or_none, find_slot apart]
  rw [← fnlIs]
  unfold setGotplt
  generalize modules.foldl (GotSearch.step addr) ⟨v, none, none, false⟩ = search
    at noticed amIs
  constructor
  · intro returned
    simp only at returned
    split at returned
    next => cases returned
    next am inSlot =>
      split at returned
      next => cases returned
      next =>
        split at returned
        next => cases returned
        next gpf registered =>
          split at returned
          next => cases returned
          next names ends =>
            split at returned
            next present =>
              obtain ⟨listed, holds⟩ := (amIs am).mp inSlot
              exact ⟨⟨gpf, ⟨am, listed, holds, registered⟩, names, ends,
                dictIn_iff.mp present⟩, Except.ok.inj returned⟩
            next => cases returned
  · rintro ⟨⟨name, ⟨am, listed, holds, registered⟩, names, ends, present⟩, rfl⟩
    have inSlot := (amIs am).mpr ⟨listed, holds⟩
    have found := noticed (by rw [ends]; rfl)
    simp only [inSlot, found, Bool.not_true, Bool.false_eq_true, if_false, dictFind,
      registered, ends, dictIn_iff.mpr present, if_true]

/-- A slot has one name. -/
theorem slotFor_unique (apart : modules.Pairwise PltApart) {first second : Name}
    (slot : SlotFor modules addr first) (other : SlotFor modules addr second) :
    first = second := by
  obtain ⟨am, listed, holds, registered⟩ := slot
  obtain ⟨another, anotherListed, anotherHolds, anotherRegistered⟩ := other
  have same : am = another := by
    by_contra different
    exact (apart.forall listed anotherListed different).slots addr
      ⟨holds, anotherHolds⟩
  rw [same, anotherRegistered] at registered
  exact (Option.some.inj registered).symm

/-- The binding is exact when the names the search ends with are the recorded ones. -/
theorem bindsExactly_iff_agree (apart : modules.Pairwise PltApart) :
    BindsExactly modules addr v ↔
      ∀ name, SlotFor modules addr name →
        (Offers ((lastNames modules v).getD none) name ↔
          RecordedUnder modules v name) := by
  constructor
  · intro binds name slot
    constructor
    · intro offers
      by_contra unrecorded
      refine (binds fun _ => 0).2 ?_ _
        ((setGotplt_eq_ok apart).mpr ⟨⟨name, slot, offers⟩, rfl⟩)
      rintro ⟨other, otherSlot, recorded⟩
      exact unrecorded (slotFor_unique apart otherSlot slot ▸ recorded)
    · intro recorded
      obtain ⟨⟨other, otherSlot, offers⟩, _⟩ :=
        (setGotplt_eq_ok apart).mp ((binds fun _ => 0).1 ⟨name, slot, recorded⟩)
      exact slotFor_unique apart otherSlot slot ▸ offers
  · intro agree image
    constructor
    · rintro ⟨name, slot, recorded⟩
      exact (setGotplt_eq_ok apart).mpr
        ⟨⟨name, slot, (agree name slot).mpr recorded⟩, rfl⟩
    · intro unrecorded after returned
      obtain ⟨⟨name, slot, offers⟩, _⟩ := (setGotplt_eq_ok apart).mp returned
      exact unrecorded ⟨name, slot, (agree name slot).mp offers⟩

/--
`set_gotplt` binds a slot to exactly the functions recorded under its name, unless a
module behind the one of the function is mistaken for it.
-/
theorem bindsExactly_iff (apart : modules.Pairwise PltApart) :
    BindsExactly modules addr v ↔ ¬ Misled modules addr v := by
  rw [bindsExactly_iff_agree apart]
  -- where a module has the value, what the search ends with and what is recorded
  have atModule : ∀ {front m back}, modules = front ++ m :: back → m.Holds v →
      lastNames modules v = (lastNames back (v - m.codeModule.baseAddr)).or
          (some (m.names (v - m.codeModule.baseAddr))) ∧
        ∀ name, RecordedUnder modules v name ↔
          Offers (m.names (v - m.codeModule.baseAddr)) name := by
    intro front m back split holds
    have listed : m ∈ modules := by simp [split]
    constructor
    · rw [split] at apart ⊢
      refine lastNames_append (fun other inFront otherHolds => ?_) holds
      exact ((List.pairwise_append.mp apart).2.2 other inFront m
        List.mem_cons_self).ranges v ⟨otherHolds, holds⟩
    · intro name
      constructor
      · rintro ⟨other, otherListed, otherHolds, offers⟩
        have same : other = m := by
          by_contra different
          exact (apart.forall otherListed listed different).ranges v
            ⟨otherHolds, holds⟩
        exact same ▸ offers
      · exact fun offers => ⟨m, listed, holds, offers⟩
  constructor
  · rintro agree ⟨name, slot, front, m, back, split, holds, later, behind, disagree⟩
    obtain ⟨ends, recorded⟩ := atModule split holds
    have verdict := agree name slot
    rw [ends, behind, recorded] at verdict
    exact disagree verdict
  · intro straight name slot
    by_cases held : ∃ m ∈ modules, m.Holds v
    · obtain ⟨m, listed, holds⟩ := held
      obtain ⟨front, back, split⟩ := List.append_of_mem listed
      obtain ⟨ends, recorded⟩ := atModule split holds
      rw [ends, recorded]
      cases behind : lastNames back (v - m.codeModule.baseAddr) with
      | none => exact Iff.rfl
      | some later =>
          by_contra disagree
          exact straight ⟨name, slot, front, m, back, split, holds, later, behind,
            disagree⟩
    · rw [lastNames_eq_none fun other listed holds => held ⟨other, listed, holds⟩]
      refine iff_of_false ?_ ?_
      · rintro ⟨_, never, _⟩
        cases never
      · rintro ⟨m, listed, holds, _⟩
        exact held ⟨m, listed, holds⟩

end Searching

namespace GotPltExample

/-- A library of more than four megabytes, with a function at this offset. -/
def library (offset : Nat) : PltModule where
  codeModule :=
    { allocCodeModule with
      baseAddr := 0x10000000
      baseAligned := rfl
      sz := 0x500000
      sizeAligned := libraryBase_aligned
      dynfuncs := link ∅ offset (Name.ofPtr 16)
      instrumented := true }
  weakfuncs := ∅
  gpfuncs := ∅

/-- A program at the lowest address, with a slot for the function. -/
def program : PltModule where
  codeModule :=
    { allocCodeModule with
      baseAddr := 0x400000
      baseAligned := programBase_aligned
      sz := pageSize
      sizeAligned := Nat.mod_self pageSize
      gotplt := 0x600000
      gotpltsz := pageSize
      instrumented := true }
  weakfuncs := ∅
  gpfuncs := (∅ : OrdDict Nat Name).insertNew 24 (Name.ofPtr 16)

/-- The two modules are apart. -/
theorem apart (offset : Nat) : [library offset, program].Pairwise PltApart := by
  refine List.pairwise_cons.mpr ⟨fun other listed => ?_, List.pairwise_singleton _ _⟩
  cases List.mem_singleton.mp listed
  constructor
  · rintro addr ⟨⟨above, _⟩, ⟨_, below⟩⟩
    have least : 0x10000000 ≤ addr := above
    have most : addr < 0x400000 + 0x1000 := below
    omega
  · rintro addr ⟨⟨above, below⟩, _⟩
    have none : addr < 0 + 0 := below
    omega

end GotPltExample

open GotPltExample in
/-- The offset of a function in a large library is the address of the program. -/
theorem binding_misled :
    ¬ ∀ (modules : List PltModule) (addr v : Nat), modules.Pairwise PltApart →
      BindsExactly modules addr v := by
  intro always
  have bound := (always [library 0x400000, program] 0x600018 0x10400000
    (apart 0x400000) fun _ => 0).1 ⟨Name.ofPtr 16,
      ⟨program, by simp, by decide, rfl⟩,
      library 0x400000, by simp, by decide, by decide⟩
  have faults : (setGotplt 0x600018 0x10400000 [library 0x400000, program]
      fun _ => 0).toOption.isSome = false := by
    decide +kernel
  rw [bound] at faults
  cases faults

open GotPltExample in
/-- The criterion at a function in the first four megabytes. -/
theorem bindsExactly_iff_low :
    BindsExactly [library 0x1000, program] 0x600018 0x10001000 ↔
      ¬ Misled [library 0x1000, program] 0x600018 0x10001000 :=
  bindsExactly_iff (apart 0x1000)

end Mcfi
