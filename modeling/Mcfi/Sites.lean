import Mcfi.TableWords

namespace Mcfi

open LinkMap

/-!
# The sites of inactive targets

A generation records, for each function that waits for an activation, the
addresses where it left the function inactive.  Patching later activates the
recorded sites of a name.
-/

/-- No site is recorded for any name. -/
def NoSites (sites : LinkMap Name Nat) : Prop :=
  ∀ name site, ¬ Linked sites name site

/-- All recorded sites satisfy a predicate. -/
def SitesIn (place : Nat → Prop) (sites : LinkMap Name Nat) : Prop :=
  ∀ name site, Linked sites name site → place site

/-- Without sites there is nothing to satisfy. -/
theorem NoSites.sitesIn {sites : LinkMap Name Nat} (none : NoSites sites)
    (place : Nat → Prop) : SitesIn place sites :=
  fun name site linked => (none name site linked).elim

/-- Recording one more site. -/
private theorem sitesIn_record
    {place : Nat → Prop} {sites : LinkMap Name Nat}
    (sitesIn : SitesIn place sites) (name : Name) {site : Nat}
    (inPlace : place site) :
    SitesIn place (gAddDirectedEdge sites name site) := by
  intro other query linked
  rcases linked_link.mp linked with ⟨_, rfl⟩ | old
  · exact inPlace
  · exact sitesIn other query old

/-- A pass records the addresses of function symbols. -/
theorem sitesIn_runStores
    {place : Nat → Prop} {stores : List TableStore} {state : TableState}
    (inPlace : ∀ store ∈ stores, (∃ name id, store =
      .funcAddr store.addr name id) → place store.addr)
    (code : SitesIn place state.fatsInCode)
    (methods : SitesIn place state.vmtd) :
    SitesIn place (runStores stores state).fatsInCode ∧
      SitesIn place (runStores stores state).vmtd := by
  refine runStores_invariant
    (motive := fun current =>
      SitesIn place current.fatsInCode ∧ SitesIn place current.vmtd)
    ?_ ⟨code, methods⟩
  intro store listed current sitesIn
  cases store with
  | native addr => exact sitesIn
  | bary slot id => exact sitesIn
  | returnAddr addr activated id =>
      simp only [TableStore.exec]
      split <;> exact sitesIn
  | funcAddr addr name id =>
      have site : place addr := inPlace _ listed ⟨name, id, rfl⟩
      simp only [TableStore.exec]
      split
      next =>
        split
        next => exact ⟨sitesIn_record sitesIn.1 name site, sitesIn.2⟩
        next =>
          split
          next => exact ⟨sitesIn.1, sitesIn_record sitesIn.2 name site⟩
          next => exact sitesIn
      next => exact sitesIn

/-- The functions taken in code start without sites. -/
theorem noSites_directFatsInCode (info : Metainfo) :
    NoSites (directFatsInCode info) := by
  rintro name site ⟨sites, found, recorded⟩
  unfold directFatsInCode at found
  rw [OrdDict.find_filterKeys] at found
  split at found
  next =>
    rw [OrdDict.find_mapVal, Option.map_eq_some_iff] at found
    obtain ⟨_, _, rfl⟩ := found
    exact OrdDict.not_mem_empty site recorded
  next => cases found

/-- Adding a method without sites. -/
private theorem noSites_insertNew
    {vmtd : LinkMap Name Nat} (none : NoSites vmtd) (key : Name)
    {sites : KeySet Nat} (empty : ∀ site, site ∉ sites) :
    NoSites (vmtd.insertNew key sites) := by
  rintro name site ⟨targets, found, recorded⟩
  rw [OrdDict.find_insertNew] at found
  split at found
  next =>
    cases found
    exact empty site recorded
  next => exact none name site ⟨targets, found, recorded⟩

/-- The methods of a module start without sites. -/
private theorem noSites_getAllVmtd
    (vtabletaken definedCtors : KeySet Name)
    (vtable : OrdDict Name (List Name)) :
    NoSites (getAllVmtd vtabletaken definedCtors vtable) := by
  have methods : ∀ (names : List Name) (vmtd : LinkMap Name Nat),
      NoSites vmtd → NoSites (names.foldl
        (fun vmtd name => getAllVmtd.gAddVertexOf vmtd name) vmtd) := by
    intro names
    induction names with
    | nil => exact fun _ none => none
    | cons head rest inductionHypothesis =>
        intro vmtd none
        exact inductionHypothesis _
          (noSites_insertNew none head OrdDict.not_mem_empty)
  unfold getAllVmtd
  have empty : NoSites (∅ : LinkMap Name Nat) := not_linked_empty
  generalize (∅ : LinkMap Name Nat) = vmtd at empty
  generalize vtable.entries = entries
  induction entries generalizing vmtd with
  | nil => exact empty
  | cons head rest inductionHypothesis =>
      apply inductionHypothesis
      beta_reduce
      split
      next => exact methods _ _ empty
      next => exact empty

/-- Merging keeps names without sites. -/
private theorem noSites_mergeDicts
    {vmtd incoming : LinkMap Name Nat} (none : NoSites vmtd)
    (noneIncoming : NoSites incoming) : NoSites (mergeDicts vmtd incoming) := by
  have values : ∀ entry ∈ incoming.entries, ∀ site, site ∉ entry.2 := by
    intro entry listed site recorded
    exact noneIncoming entry.1 site
      ⟨entry.2, OrdDict.find_eq_some.mpr listed, recorded⟩
  unfold mergeDicts
  generalize incoming.entries = entries at values
  induction entries generalizing vmtd with
  | nil => exact none
  | cons head rest inductionHypothesis =>
      exact inductionHypothesis
        (noSites_insertNew none head.1 (values head (by simp)))
        (fun entry listed => values entry (List.mem_cons_of_mem _ listed))

/-- The methods that wait for constructors start without sites. -/
theorem noSites_directVmtd (runtime : Runtime) :
    NoSites (directVmtd runtime) := by
  unfold directVmtd
  have empty : NoSites (∅ : LinkMap Name Nat) := not_linked_empty
  generalize (∅ : LinkMap Name Nat) = vmtd at empty
  generalize (mergeMcfiMetainfo runtime.modules).definedCtors = definedCtors
  induction runtime.modules generalizing vmtd with
  | nil => exact empty
  | cons head rest inductionHypothesis =>
      apply inductionHypothesis
      exact noSites_mergeDicts empty (noSites_getAllVmtd _ _ _)

/-- The sites that a generation records are addresses of its symbols. -/
theorem sitesIn_genCfg
    {place : Nat → Prop} {attrs : UInt8} {before after : Runtime}
    (inPlace : ∀ target : TarySymbol before.modules,
      target.codeModule.instrumented = true → place target.addr)
    (returned : genCfg attrs before = .ok after) :
    SitesIn place after.fatsInCode ∧ SitesIn place after.vmtd := by
  obtain ⟨cfg, computed, outcome⟩ := genCfg_result returned
  obtain ⟨facts⟩ := computeCfg_facts computed
  rw [outcome.fatsInCodeIs, outcome.vmtdIs, fillTables]
  refine sitesIn_runStores ?_ ?_ ?_
  · rintro store stored ⟨name, id, storeIs⟩
    rcases tableUpdate_store stored with
      ⟨target, instrumented, addrIs, _⟩ | ⟨_, _, _, _, isNative, _⟩ |
        ⟨branch, isBary⟩
    · rw [addrIs]
      exact inPlace target instrumented
    · rw [storeIs] at isNative
      cases isNative
    · rw [storeIs] at isBary
      cases isBary
  · rw [facts.fatsInCodeIs]
    exact (noSites_directFatsInCode _).sitesIn place
  · rw [facts.vmtdIs]
    exact (noSites_directVmtd before).sitesIn place

end Mcfi
