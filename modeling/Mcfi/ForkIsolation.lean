import Mcfi.ForkedProcesses

namespace Mcfi

open SharedMap

/-!
# Forked processes are isolated

Whatever the order in which any number of processes take the steps of their forks,
each object is mapped for one mapping of one process, and each mapping shows what
the process has stored there itself or found when it was forked.  What a mapping
holds at each point of a fork is a stage; a step moves one mapping of one process to
its next stage and leaves all others.
-/

/-- The contents of the mappings of a process. -/
abbrev Contents := Nat → Nat → UInt8

section Stages

/-- The place in the sandbox shows an object. -/
def Region.BaseShows (region : Region) (maps : SharedMap UInt32) (object : Nat) : Prop :=
  ∀ k < region.size, maps (region.base + k) = some ⟨object, k, region.prot⟩

/-- The place outside the sandbox shows an object, to be written. -/
def Region.OsbShows (region : Region) (maps : SharedMap UInt32) (object : Nat) : Prop :=
  ∀ k < region.size, maps (region.osbBase + k) = some ⟨object, k, protWriteOnly⟩

/-- Both places show one object that has a content. -/
def Region.Shows (region : Region) (objects : Objects) (maps : SharedMap UInt32)
    (content : Nat → UInt8) : Prop :=
  ∃ object, region.BaseShows maps object ∧ region.OsbShows maps object ∧
    ∀ k < region.size, objects object k = content k

/-- Nothing is mapped at the places. -/
def Region.Away (region : Region) (maps : SharedMap UInt32) : Prop :=
  ∀ addr, region.Covers addr → maps addr = none

/-- A content, as it is saved. -/
def Region.bytes (region : Region) (content : Nat → UInt8) : List UInt8 :=
  (List.range region.size).map content

/-- What a mapping goes through in a fork. -/
inductive MappingStage where
  | live
  | leaving
  | away
  | half (object : Nat)
  | blank (object : Nat)
  | named

/-- The stage of each mapping. -/
def ForkPoint.stage : ForkPoint → Nat → MappingStage
  | running, _ => .live
  | saving index, i => if i < index then .leaving else .live
  | unmapping index, i => if i < index then .away else .leaving
  | forking, _ => .away
  | opening index, i => if i < index then .live else .away
  | truncating index _, i => if i < index then .live else .away
  | mappingBase index _, i => if i < index then .live else .away
  | mappingOsb index object, i =>
      if i < index then .live else if i = index then .half object else .away
  | unlinking index object, i =>
      if i < index then .live else if i = index then .blank object else .away
  | copying index, i =>
      if i < index then .live else if i = index then .named else .away

/-- The mapping that has an object opened for it is one of the mappings. -/
def ForkPoint.Within (count : Nat) : ForkPoint → Prop
  | truncating index _ => index < count
  | mappingBase index _ => index < count
  | mappingOsb index _ => index < count
  | unlinking index _ => index < count
  | copying index => index < count
  | _ => True

/-- What holds of a mapping at a stage. -/
def MappingStage.Holds (objects : Objects) (maps : SharedMap UInt32)
    (saved : Option (List UInt8)) (region : Region) (content : Nat → UInt8) :
    MappingStage → Prop
  | live => region.Shows objects maps content
  | leaving => saved = some (region.bytes content) ∧ region.Shows objects maps content
  | away => saved = some (region.bytes content) ∧ region.Away maps
  | half object => saved = some (region.bytes content) ∧ region.BaseShows maps object
  | blank object => saved = some (region.bytes content) ∧
      region.BaseShows maps object ∧ region.OsbShows maps object
  | named => saved = some (region.bytes content) ∧
      ∃ object, region.BaseShows maps object ∧ region.OsbShows maps object

variable {region : Region} {maps later : SharedMap UInt32} {objects next : Objects}
  {content : Nat → UInt8} {saved : Option (List UInt8)} {object : Nat}

/-- The places of a mapping are covered. -/
theorem Region.covers_base {k : Nat} (inside : k < region.size) :
    region.Covers (region.base + k) :=
  Or.inl ⟨Nat.le_add_right _ _, Nat.add_lt_add_left inside _⟩

theorem Region.covers_osb {k : Nat} (inside : k < region.size) :
    region.Covers (region.osbBase + k) :=
  Or.inr ⟨Nat.le_add_right _ _, Nat.add_lt_add_left inside _⟩

/-- What a mapping is at a stage depends on its own places and objects only. -/
theorem MappingStage.Holds.congr {stage : MappingStage}
    (holds : stage.Holds objects maps saved region content)
    (sameMaps : ∀ addr, region.Covers addr → later addr = maps addr)
    (sameObjects : ∀ addr byte, region.Covers addr → maps addr = some byte →
      ∀ k, next byte.object k = objects byte.object k) :
    stage.Holds next later saved region content := by
  have base : ∀ {object}, region.BaseShows maps object →
      region.BaseShows later object := by
    intro object shows k inside
    rw [sameMaps _ (Region.covers_base inside)]
    exact shows k inside
  have osb : ∀ {object}, region.OsbShows maps object →
      region.OsbShows later object := by
    intro object shows k inside
    rw [sameMaps _ (Region.covers_osb inside)]
    exact shows k inside
  have both : region.Shows objects maps content → region.Shows next later content := by
    rintro ⟨object, baseShows, osbShows, contents⟩
    refine ⟨object, base baseShows, osb osbShows, fun k inside => ?_⟩
    rw [sameObjects _ _ (Region.covers_base inside) (baseShows k inside) k]
    exact contents k inside
  cases stage with
  | live => exact both holds
  | leaving => exact ⟨holds.1, both holds.2⟩
  | away =>
      refine ⟨holds.1, fun addr covers => ?_⟩
      rw [sameMaps addr covers]
      exact holds.2 addr covers
  | half object => exact ⟨holds.1, base holds.2⟩
  | blank object => exact ⟨holds.1, base holds.2.1, osb holds.2.2⟩
  | named =>
      obtain ⟨isSaved, object, baseShows, osbShows⟩ := holds
      exact ⟨isSaved, object, base baseShows, osb osbShows⟩

end Stages

section Invariant

/-- What every step keeps of a process. -/
structure ForkProcess.Keeps (objects : Objects) (process : ForkProcess)
    (contents : Contents) : Prop where
  apart : RegionsApart process.regions
  confined : ∀ addr byte, process.maps addr = some byte →
    ∃ region ∈ process.regions, region.Covers addr
  stages : ∀ i region, process.regions[i]? = some region →
    (process.point.stage i).Holds objects process.maps (process.saved i) region
      (contents i)
  within : process.point.Within process.regions.length

/-- An object is mapped for a mapping of a process, or has been opened for it. -/
def ForkProcess.Holds (process : ForkProcess) (i object : Nat) : Prop :=
  (∃ region addr byte, process.regions[i]? = some region ∧ region.Covers addr ∧
    process.maps addr = some byte ∧ byte.object = object) ∨
    process.point.opened = some (i, object)

/-- The contents of the mappings of all processes. -/
abbrev ForkCopies := Nat → Option Contents

/-- A content with one byte of one mapping stored. -/
def patchContents (region offset : Nat) (byte : UInt8) (contents : Contents) : Contents :=
  fun i k => if i = region ∧ k = offset then byte else contents i k

/-- What an event does to private contents. -/
def ForkEvent.apply (copies : ForkCopies) : ForkEvent → ForkCopies
  | stored pid region offset byte =>
      Function.update copies pid ((copies pid).map (patchContents region offset byte))
  | forked parent child => Function.update copies child (copies parent)

/-- What every step keeps of all processes. -/
structure Isolated (system : ForkSystem) (copies : ForkCopies) : Prop where
  copied : ∀ pid process, system.processes pid = some process →
    ∃ contents, copies pid = some contents ∧
      process.Keeps system.kernel.objects contents
  owner : ∀ {first second : Nat} {process other : ForkProcess} {i j object : Nat},
    system.processes first = some process → system.processes second = some other →
      process.Holds i object → other.Holds j object → first = second ∧ i = j
  fresh : ∀ {pid : Nat} {process : ForkProcess} {i object : Nat},
    system.processes pid = some process → process.Holds i object →
      object < system.kernel.fresh
  opened : ∀ {pid : Nat} {process : ForkProcess} {i object : Nat},
    system.processes pid = some process → process.point.opened = some (i, object) →
      system.kernel.shm = some object
  named : ∀ {object : Nat}, system.kernel.shm = some object →
    ∃ pid process i, system.processes pid = some process ∧
      process.point.opened = some (i, object)

end Invariant

section Steps

variable {kernel next : ForkKernel} {process after : ForkProcess} {contents : Contents}
  {i object : Nat} {region : Region}

/-- A mapping that shows an object holds it. -/
theorem ForkProcess.holds_of_mapped {addr : Nat} {byte : MappedByte UInt32}
    (isRegion : process.regions[i]? = some region) (covers : region.Covers addr)
    (mapped : process.maps addr = some byte) : process.Holds i byte.object :=
  Or.inl ⟨region, addr, byte, isRegion, covers, mapped, rfl⟩

/-- A step that moves no mapping keeps a process, stage by stage. -/
private theorem ForkProcess.Keeps.relabel {objects : Objects}
    (keeps : process.Keeps objects contents) (sameModules : after.modules = process.modules)
    (sameMaps : after.maps = process.maps)
    (within : after.point.Within process.regions.length)
    (stages : ∀ i region, process.regions[i]? = some region →
      (process.point.stage i).Holds objects process.maps (process.saved i) region
          (contents i) →
        (after.point.stage i).Holds objects process.maps (after.saved i) region
          (contents i)) :
    after.Keeps objects contents := by
  have sameRegions : after.regions = process.regions := by
    rw [ForkProcess.regions, sameModules, ← ForkProcess.regions]
  refine ⟨sameRegions ▸ keeps.apart, ?_, ?_, sameRegions ▸ within⟩
  · rw [sameMaps, sameRegions]
    exact keeps.confined
  · intro i region isRegion
    rw [sameRegions] at isRegion
    rw [sameMaps]
    exact stages i region isRegion (keeps.stages i region isRegion)

/-- A step that moves one mapping keeps a process when it moves it to its stage. -/
private theorem ForkProcess.Keeps.move {objects later : Objects} {index : Nat}
    (keeps : process.Keeps objects contents)
    (isRegion : process.regions[index]? = some region)
    (sameModules : after.modules = process.modules)
    (within : index < process.regions.length →
      after.point.Within process.regions.length)
    (sameMaps : ∀ addr, ¬ region.Covers addr → after.maps addr = process.maps addr)
    (sameSaved : ∀ j, j ≠ index → after.saved j = process.saved j)
    (sameStages : ∀ j, j ≠ index → after.point.stage j = process.point.stage j)
    (sameObjects : ∀ j object, j ≠ index → process.Holds j object →
      ∀ k, later object k = objects object k)
    (moved : (after.point.stage index).Holds later after.maps (after.saved index) region
      (contents index)) :
    after.Keeps later contents := by
  have sameRegions : after.regions = process.regions := by
    rw [ForkProcess.regions, sameModules, ← ForkProcess.regions]
  refine ⟨sameRegions ▸ keeps.apart, ?_, ?_,
    sameRegions ▸ within (List.getElem?_eq_some_iff.mp isRegion).1⟩
  · intro addr byte mapped
    rw [sameRegions]
    by_cases covers : region.Covers addr
    · exact ⟨region, List.mem_of_getElem? isRegion, covers⟩
    · rw [sameMaps addr covers] at mapped
      exact keeps.confined addr byte mapped
  · intro j other isOther
    rw [sameRegions] at isOther
    by_cases same : j = index
    · subst same
      cases isRegion.symm.trans isOther
      exact moved
    · rw [sameStages j same, sameSaved j same]
      refine (keeps.stages j other isOther).congr ?_ ?_
      · exact fun addr covers => sameMaps addr
          (keeps.apart.others isOther isRegion same addr covers)
      · exact fun addr byte covers mapped => sameObjects j byte.object same
          (ForkProcess.holds_of_mapped isOther covers mapped)

/-- The mappings of one process hold different objects. -/
def ForkProcess.OneHolder (process : ForkProcess) : Prop :=
  ∀ {i j object : Nat}, process.Holds i object → process.Holds j object → i = j

/-- The mapping that a loop is at. -/
theorem stage_here (index : Nat) (done here rest : MappingStage) :
    (if index < index then done else if index = index then here else rest) = here := by
  rw [if_neg (Nat.lt_irrefl index), if_pos rfl]

/-- The mappings that a loop is not at keep their stages. -/
private theorem stage_other {index j : Nat} (other : j ≠ index)
    (done here rest : MappingStage) :
    (if j < index then done else if j = index then here else rest) =
      if j < index then done else rest := by
  rw [if_neg other]

/-- A loop that moves on passes one mapping. -/
private theorem stage_next {index j : Nat} (other : j ≠ index) (done rest : MappingStage) :
    (if j < index + 1 then done else rest) = if j < index then done else rest := by
  congr 1
  exact propext (by omega)

/-- A loop is over when it has passed all mappings. -/
private theorem stage_over {regions : List Region} {index : Nat}
    (atEnd : regions[index]? = none) (isRegion : regions[i]? = some region)
    (done rest : MappingStage) : (if i < index then done else rest) = done := by
  refine if_pos ?_
  have atMost := List.getElem?_eq_none_iff.mp atEnd
  have below := (List.getElem?_eq_some_iff.mp isRegion).1
  omega

/-- What may be loaded from a mapping in the sandbox is its content. -/
theorem Region.Shows.load {objects : Objects} {maps : SharedMap UInt32}
    {content : Nat → UInt8} (shows : region.Shows objects maps content)
    (rights : loadable region.prot = true) :
    maps.load loadable objects region.base region.size = some (region.bytes content) := by
  obtain ⟨object, base, -, same⟩ := shows
  have mapped : ∀ k < region.size,
      maps (region.base + k) = some ⟨object, 0 + k, region.prot⟩ := by
    intro k inside
    rw [base k inside, Nat.zero_add]
  have contents : ∀ k < region.size, objects object (0 + k) = content (0 + k) := by
    intro k inside
    rw [Nat.zero_add, same k inside]
  have loaded := load_mapped region.base 0 mapped rights contents
  simpa only [Nat.zero_add, Region.bytes] using loaded

/-- All mappings may be loaded in the sandbox. -/
theorem ForkProcess.loadable_prot (isRegion : process.regions[i]? = some region) :
    loadable region.prot = true := by
  have mem := List.mem_of_getElem? isRegion
  obtain ⟨m, -, inModule⟩ := List.mem_flatMap.mp mem
  rcases List.mem_cons.mp inModule with isCode | isGotplt
  · subst isCode
    rfl
  · split at isGotplt
    · cases List.mem_singleton.mp isGotplt
      rfl
    · cases isGotplt

/--
What `memcpy` stores outside the sandbox is the content of the mapping, and no object
changes that the mapping does not hold.
-/
theorem ForkProcess.store_content (objects : Objects) (content : Nat → UInt8)
    {mapped index : Nat} (isRegion : process.regions[index]? = some region)
    (osb : region.OsbShows process.maps mapped) :
    ∃ stored,
      process.maps.store protWrite objects region.osbBase (region.bytes content) =
        some stored ∧
      (∀ k < region.size, stored mapped k = content k) ∧
      ∀ other, ¬ process.Holds index other → ∀ k, stored other k = objects other k := by
  have length : (region.bytes content).length = region.size := by
    rw [Region.bytes, List.length_map, List.length_range]
  have shown : ∀ k < (region.bytes content).length,
      process.maps (region.osbBase + k) = some ⟨mapped, 0 + k, protWriteOnly⟩ := by
    intro k below
    rw [length] at below
    rw [osb k below, Nat.zero_add]
  have allowed : protWrite protWriteOnly = true := by decide
  obtain ⟨stored, isStore, inside, outside⟩ :=
    store_mapped objects region.osbBase 0 shown allowed
  refine ⟨stored, isStore, fun k below => ?_, fun other notHeld k => ?_⟩
  · rw [← Nat.zero_add k]
    refine inside k _ ?_
    rw [Region.bytes, List.getElem?_map, List.getElem?_range below, Nat.zero_add]
    rfl
  · refine outside other k ?_
    rcases Nat.eq_zero_or_pos region.size with isEmpty | positive
    · rw [length, isEmpty]
      exact Or.inr (Or.inr (Nat.zero_le k))
    · refine Or.inl ?_
      rintro rfl
      exact notHeld (ForkProcess.holds_of_mapped isRegion (Region.covers_osb positive)
        (osb 0 positive))

/-- Each step keeps the process that takes it. -/
theorem Advance.keeps (advances : Advance kernel process next after)
    (keeps : process.Keeps kernel.objects contents) (oneHolder : process.OneHolder) :
    after.Keeps next.objects contents := by
  cases advances with
  | call isPoint =>
      refine keeps.relabel rfl rfl trivial fun i region _ holds => ?_
      rw [isPoint] at holds
      exact holds
  | @save index region bytes isPoint isRegion copied =>
      have holds := keeps.stages index region isRegion
      rw [isPoint, ForkPoint.stage, if_neg (Nat.lt_irrefl index)] at holds
      refine keeps.move isRegion rfl (fun _ => trivial) (fun _ _ => rfl)
        (fun j other => Function.update_of_ne other _ _) ?_ (fun _ _ _ _ _ => rfl) ?_
      · intro j other
        rw [isPoint]
        exact stage_next other _ _
      · simp only [ForkPoint.stage, Nat.lt_succ_self, if_true, Function.update_self]
        refine ⟨?_, holds⟩
        cases copied.symm.trans (holds.load (ForkProcess.loadable_prot isRegion))
        rfl
  | allSaved isPoint atEnd =>
      refine keeps.relabel rfl rfl trivial fun i region isRegion holds => ?_
      rw [isPoint, ForkPoint.stage, stage_over atEnd isRegion] at holds
      exact holds
  | @unmap index region isPoint isRegion =>
      have holds := keeps.stages index region isRegion
      rw [isPoint, ForkPoint.stage, if_neg (Nat.lt_irrefl index)] at holds
      refine keeps.move isRegion rfl (fun _ => trivial) ?_ (fun _ _ => rfl) ?_
        (fun _ _ _ _ _ => rfl) ?_
      · intro addr outside
        simp only [Region.Covers, not_or] at outside
        exact (unmap_outside outside.2).trans (unmap_outside outside.1)
      · intro j other
        rw [isPoint]
        exact stage_next other _ _
      · simp only [ForkPoint.stage, Nat.lt_succ_self, if_true]
        refine ⟨holds.1, ?_⟩
        rintro addr (inBase | inOsb)
        · by_cases inOther :
            region.osbBase ≤ addr ∧ addr < region.osbBase + region.size
          · exact unmap_inside inOther.1 inOther.2
          · rw [unmap_outside inOther]
            exact unmap_inside inBase.1 inBase.2
        · exact unmap_inside inOsb.1 inOsb.2
  | allUnmapped isPoint atEnd =>
      refine keeps.relabel rfl rfl trivial fun i region isRegion holds => ?_
      rw [isPoint, ForkPoint.stage, stage_over atEnd isRegion] at holds
      exact holds
  | forkFails isPoint =>
      refine keeps.relabel rfl rfl trivial fun i region _ holds => ?_
      rw [isPoint] at holds
      rw [ForkPoint.stage, if_neg (Nat.not_lt_zero i)]
      exact holds
  | create isPoint isRegion absent =>
      refine keeps.relabel rfl rfl (List.getElem?_eq_some_iff.mp isRegion).1
        fun i region _ holds => ?_
      rw [isPoint] at holds
      exact holds
  | @truncate index object isPoint =>
      have opened : process.Holds index object := by
        refine Or.inr ?_
        rw [isPoint]
        rfl
      have within : index < process.regions.length := by
        have before := keeps.within
        rw [isPoint] at before
        exact before
      refine ⟨keeps.apart, keeps.confined, fun j region isRegion => ?_, within⟩
      have holds := keeps.stages j region isRegion
      rw [isPoint] at holds
      refine holds.congr (fun _ _ => rfl) fun addr byte covers mapped k => ?_
      have held : process.Holds j byte.object :=
        ForkProcess.holds_of_mapped isRegion covers mapped
      by_cases same : byte.object = object
      · rw [same] at held
        cases oneHolder held opened
        simp only [ForkPoint.stage, Nat.lt_irrefl, if_false] at holds
        rw [holds.2 addr covers] at mapped
        cases mapped
      · simp only [Function.update_of_ne same]
  | @mapBase index object region isPoint isRegion =>
      have holds := keeps.stages index region isRegion
      rw [isPoint, ForkPoint.stage, if_neg (Nat.lt_irrefl index)] at holds
      refine keeps.move isRegion rfl (fun within => within) ?_ (fun _ _ => rfl) ?_
        (fun _ _ _ _ _ => rfl) ?_
      · intro addr outside
        exact mapObject_outside fun inside => outside (Or.inl inside)
      · intro j other
        rw [isPoint]
        exact stage_other other _ _ _
      · simp only [ForkPoint.stage, Nat.lt_irrefl, if_false, if_true]
        exact ⟨holds.1, fun k inside => mapObject_inside inside⟩
  | @mapOsb index object region isPoint isRegion =>
      have holds := keeps.stages index region isRegion
      rw [isPoint, ForkPoint.stage, stage_here] at holds
      refine keeps.move isRegion rfl (fun within => within) ?_ (fun _ _ => rfl) ?_
        (fun _ _ _ _ _ => rfl) ?_
      · intro addr outside
        exact mapObject_outside fun inside => outside (Or.inr inside)
      · intro j other
        rw [isPoint]
        exact (stage_other other _ _ _).trans (stage_other other _ _ _).symm
      · simp only [ForkPoint.stage, Nat.lt_irrefl, if_false, if_true]
        refine ⟨holds.1, fun k inside => ?_, fun k inside => mapObject_inside inside⟩
        rw [mapObject_outside (keeps.apart.own region (List.mem_of_getElem? isRegion) _
          (Nat.le_add_right _ _) (Nat.add_lt_add_left inside _))]
        exact holds.2 k inside
  | @unlink index object isPoint =>
      have within : index < process.regions.length := by
        have before := keeps.within
        rw [isPoint] at before
        exact before
      refine keeps.relabel rfl rfl within fun i region _ holds => ?_
      rw [isPoint] at holds
      simp only [ForkPoint.stage] at holds ⊢
      split at holds
      next below =>
        rw [if_pos below]
        exact holds
      next notBelow =>
        rw [if_neg notBelow]
        split at holds
        next isIndex =>
          rw [if_pos isIndex]
          exact ⟨holds.1, object, holds.2⟩
        next notIndex =>
          rw [if_neg notIndex]
          exact holds
  | @copy index region bytes objects isPoint isRegion isSaved copied =>
      have holds := keeps.stages index region isRegion
      rw [isPoint, ForkPoint.stage, stage_here] at holds
      obtain ⟨sameBytes, object, base, osb⟩ := holds
      cases isSaved.symm.trans sameBytes
      obtain ⟨stored, isStore, inside, outside⟩ := ForkProcess.store_content
        kernel.objects (contents index) isRegion osb
      cases copied.symm.trans isStore
      refine keeps.move isRegion rfl (fun _ => trivial) (fun _ _ => rfl)
        (fun j other => Function.update_of_ne other _ _) ?_ ?_ ?_
      · intro j other
        rw [isPoint]
        exact (stage_next other _ _).trans (stage_other other _ _ _).symm
      · intro j other notIndex held
        exact outside other fun here => notIndex (oneHolder held here)
      · simp only [ForkPoint.stage, Nat.lt_succ_self, if_true]
        exact ⟨object, base, osb, inside⟩
  | finish isPoint atEnd =>
      refine keeps.relabel rfl rfl trivial fun i region isRegion holds => ?_
      rw [isPoint, ForkPoint.stage, stage_over atEnd isRegion] at holds
      exact holds

/-- What a step leaves of the objects that its process does not hold. -/
theorem Advance.frame (advances : Advance kernel process next after)
    (keeps : process.Keeps kernel.objects contents)
    (notHeld : ∀ i, ¬ process.Holds i object) (k : Nat) :
    next.objects object k = kernel.objects object k := by
  cases advances with
  | call | save | allSaved | unmap | allUnmapped | forkFails | create | mapBase
  | mapOsb | unlink | finish => rfl
  | @truncate index opened isPoint =>
      have held : process.Holds index opened := by
        refine Or.inr ?_
        rw [isPoint]
        rfl
      have different : object ≠ opened := by
        rintro rfl
        exact notHeld index held
      simp only [Function.update_of_ne different]
  | @copy index region bytes objects isPoint isRegion isSaved copied =>
      have holds := keeps.stages index region isRegion
      rw [isPoint, ForkPoint.stage, stage_here] at holds
      obtain ⟨sameBytes, mapped, -, osb⟩ := holds
      cases isSaved.symm.trans sameBytes
      obtain ⟨stored, isStore, -, outside⟩ := ForkProcess.store_content
        kernel.objects (contents index) isRegion osb
      cases copied.symm.trans isStore
      exact outside object (notHeld index) k

/-- The objects that a process holds after a step are those before, or a new one. -/
theorem Advance.holds (advances : Advance kernel process next after)
    (apart : RegionsApart process.regions) (held : after.Holds i object) :
    process.Holds i object ∨
      (object = kernel.fresh ∧ after.point.opened = some (i, kernel.fresh)) := by
  rcases held with ⟨region, addr, byte, isRegion, covers, mapped, isObject⟩ | opened
  · cases advances with
    | call | save | allSaved | allUnmapped | forkFails | create | truncate | unlink
    | copy | finish =>
        exact Or.inl (Or.inl ⟨region, addr, byte, isRegion, covers, mapped, isObject⟩)
    | unmap isPoint _ =>
        exact Or.inl (Or.inl ⟨region, addr, byte, isRegion, covers,
          unmap_mapped (unmap_mapped mapped), isObject⟩)
    | @mapBase index opened other isPoint isOther =>
        rcases mapObject_cases mapped with ⟨low, high, isOpened⟩ | before
        · refine Or.inl (Or.inr ?_)
          have same : i = index := by
            by_contra different
            exact apart.others isRegion isOther different addr covers
              (Or.inl ⟨low, high⟩)
          rw [isPoint, same, ← isObject, isOpened]
          rfl
        · exact Or.inl (Or.inl ⟨region, addr, byte, isRegion, covers, before, isObject⟩)
    | @mapOsb index opened other isPoint isOther =>
        rcases mapObject_cases mapped with ⟨low, high, isOpened⟩ | before
        · refine Or.inl (Or.inr ?_)
          have same : i = index := by
            by_contra different
            exact apart.others isRegion isOther different addr covers
              (Or.inr ⟨low, high⟩)
          rw [isPoint, same, ← isObject, isOpened]
          rfl
        · exact Or.inl (Or.inl ⟨region, addr, byte, isRegion, covers, before, isObject⟩)
  · cases advances with
    | create isPoint _ absent =>
        cases opened
        exact Or.inr ⟨rfl, rfl⟩
    | truncate isPoint | mapBase isPoint _ | mapOsb isPoint _ =>
        refine Or.inl (Or.inr ?_)
        rw [isPoint]
        exact opened
    | call | save | allSaved | unmap | allUnmapped | forkFails | unlink | copy
    | finish => cases opened

/-- What a step does to the name: nothing, or it takes it, or it gives it back. -/
theorem Advance.name (advances : Advance kernel process next after) :
    (next.shm = kernel.shm ∧ next.fresh = kernel.fresh ∧
        after.point.opened = process.point.opened) ∨
      (kernel.shm = none ∧ next.shm = some kernel.fresh ∧
        next.fresh = kernel.fresh + 1 ∧
        ∃ i, after.point.opened = some (i, kernel.fresh)) ∨
      (next.shm = none ∧ next.fresh = kernel.fresh ∧ after.point.opened = none ∧
        ∃ i object, process.point.opened = some (i, object)) := by
  cases advances with
  | call isPoint | save isPoint _ _ | allSaved isPoint _ | unmap isPoint _
  | allUnmapped isPoint _ | forkFails isPoint | truncate isPoint | mapBase isPoint _
  | mapOsb isPoint _ | copy isPoint _ _ _ | finish isPoint _ =>
      refine Or.inl ⟨rfl, rfl, ?_⟩
      rw [isPoint]
      rfl
  | create isPoint _ absent => exact Or.inr (Or.inl ⟨absent, rfl, rfl, _, rfl⟩)
  | unlink isPoint =>
      refine Or.inr (Or.inr ⟨rfl, rfl, rfl, ?_⟩)
      rw [isPoint]
      exact ⟨_, _, rfl⟩

/-- What a process shows depends on the objects that it holds only. -/
theorem ForkProcess.Keeps.objects {objects later : Objects}
    (keeps : process.Keeps objects contents)
    (same : ∀ i object, process.Holds i object → ∀ k,
      later object k = objects object k) :
    process.Keeps later contents := by
  refine ⟨keeps.apart, keeps.confined, fun i region isRegion => ?_, keeps.within⟩
  exact (keeps.stages i region isRegion).congr (fun _ _ => rfl)
    fun addr byte covers mapped =>
      same i byte.object (ForkProcess.holds_of_mapped isRegion covers mapped)

/-- Nothing is mapped for a process that is about to fork. -/
theorem ForkProcess.Keeps.unmapped {objects : Objects}
    (keeps : process.Keeps objects contents) (isPoint : process.point = .forking)
    (addr : Nat) : process.maps addr = none := by
  cases mapped : process.maps addr with
  | none => rfl
  | some byte =>
      obtain ⟨region, mem, covers⟩ := keeps.confined addr byte mapped
      obtain ⟨i, isRegion⟩ := List.mem_iff_getElem?.mp mem
      have holds := keeps.stages i region isRegion
      rw [isPoint, ForkPoint.stage] at holds
      rw [holds.2 addr covers] at mapped
      cases mapped

end Steps

section Runs

variable {system last : ForkSystem} {copies : ForkCopies} {kernel : ForkKernel}
  {process next : ForkProcess} {pid : Nat}

/-- A process of a system after one process has changed. -/
private theorem changed_cases {processes : Nat → Option ForkProcess} {asked : Nat}
    {found : ForkProcess}
    (isProcess : Function.update processes pid (some next) asked = some found) :
    (asked = pid ∧ next = found) ∨ (asked ≠ pid ∧ processes asked = some found) := by
  by_cases same : asked = pid
  · subst same
    rw [Function.update_self] at isProcess
    exact Or.inl ⟨rfl, Option.some.inj isProcess⟩
  · rw [Function.update_of_ne same] at isProcess
    exact Or.inr ⟨same, isProcess⟩

/-- The mappings of each process hold different objects. -/
theorem Isolated.oneHolder (isolated : Isolated system copies)
    (isProcess : system.processes pid = some process) : process.OneHolder :=
  fun first second => (isolated.owner isProcess isProcess first second).2

/-- An object that another process holds is not held by this one. -/
private theorem Isolated.apart (isolated : Isolated system copies)
    {asked : Nat} {other : ForkProcess} {j object : Nat}
    (isProcess : system.processes pid = some process)
    (isOther : system.processes asked = some other) (different : asked ≠ pid)
    (held : other.Holds j object) (i : Nat) : ¬ process.Holds i object :=
  fun own => different (isolated.owner isOther isProcess held own).1

/-- A step of one process keeps all processes isolated. -/
theorem Isolated.advance (isolated : Isolated system copies)
    (isProcess : system.processes pid = some process)
    (advances : Advance system.kernel process kernel next) :
    Isolated ⟨kernel, Function.update system.processes pid (some next)⟩ copies := by
  obtain ⟨contents, isCopy, keeps⟩ := isolated.copied pid process isProcess
  have heldBefore : ∀ {i object : Nat}, next.Holds i object →
      process.Holds i object ∨ (object = system.kernel.fresh ∧
        next.point.opened = some (i, system.kernel.fresh)) :=
    fun held => advances.holds keeps.apart held
  have atMost : system.kernel.fresh ≤ kernel.fresh := by
    rcases advances.name with ⟨-, same, -⟩ | ⟨-, -, more, -⟩ | ⟨-, same, -, -⟩
    all_goals omega
  -- an object that was not there is held for the mapping that it was opened for
  have ownerOf : ∀ {asked : Nat} {other : ForkProcess} {i j object : Nat},
      system.processes asked = some other → asked ≠ pid → next.Holds i object →
        other.Holds j object → False := by
    intro asked other i j object isOther different held heldOther
    rcases heldBefore held with before | ⟨isFresh, -⟩
    · exact isolated.apart isProcess isOther different heldOther i before
    · have below := isolated.fresh isOther heldOther
      omega
  refine ⟨?_, ?_, ?_, ?_, ?_⟩
  · intro asked found isFound
    rcases changed_cases isFound with ⟨same, isNext⟩ | ⟨different, isOther⟩
    · subst same isNext
      exact ⟨contents, isCopy, advances.keeps keeps (isolated.oneHolder isProcess)⟩
    · obtain ⟨others, isOthers, keepsOther⟩ := isolated.copied asked found isOther
      refine ⟨others, isOthers, keepsOther.objects fun i object held => ?_⟩
      exact advances.frame keeps (isolated.apart isProcess isOther different held)
  · intro first second one other i j object isOne isOther heldOne heldOther
    rcases changed_cases isOne with ⟨isFirst, isNext⟩ | ⟨notFirst, before⟩
    · subst isFirst isNext
      rcases changed_cases isOther with ⟨isSecond, isNext⟩ | ⟨notSecond, beforeOther⟩
      · subst isSecond isNext
        refine ⟨rfl, ?_⟩
        rcases heldBefore heldOne with ownOne | ⟨isFresh, openedOne⟩
        · rcases heldBefore heldOther with ownOther | ⟨isFresh, -⟩
          · exact isolated.oneHolder isProcess ownOne ownOther
          · have below := isolated.fresh isProcess ownOne
            omega
        · rcases heldBefore heldOther with ownOther | ⟨-, openedOther⟩
          · have below := isolated.fresh isProcess ownOther
            omega
          · rw [openedOne] at openedOther
            cases openedOther
            rfl
      · exact (ownerOf beforeOther notSecond heldOne heldOther).elim
    · rcases changed_cases isOther with ⟨isSecond, isNext⟩ | ⟨notSecond, beforeOther⟩
      · subst isSecond isNext
        exact (ownerOf before notFirst heldOther heldOne).elim
      · exact isolated.owner before beforeOther heldOne heldOther
  · intro asked found i object isFound held
    rcases changed_cases isFound with ⟨same, isNext⟩ | ⟨different, isOther⟩
    · subst same isNext
      rcases heldBefore held with before | ⟨isFresh, opened⟩
      · exact lt_of_lt_of_le (isolated.fresh isProcess before) atMost
      · rcases advances.name with ⟨-, -, same⟩ | ⟨-, -, more, -⟩ | ⟨-, -, none, -⟩
        · rw [same] at opened
          have below := isolated.fresh isProcess (Or.inr opened)
          omega
        · simp only [isFresh, more]
          omega
        · rw [none] at opened
          cases opened
    · exact lt_of_lt_of_le (isolated.fresh isOther held) atMost
  · intro asked found i object isFound opened
    rcases changed_cases isFound with ⟨same, isNext⟩ | ⟨different, isOther⟩
    · subst same isNext
      rcases advances.name with ⟨sameName, -, same⟩ | ⟨-, taken, -, j, isOpened⟩ |
        ⟨-, -, none, -⟩
      · rw [sameName]
        exact isolated.opened isProcess (same ▸ opened)
      · rw [isOpened] at opened
        cases opened
        exact taken
      · rw [none] at opened
        cases opened
    · have before := isolated.opened isOther opened
      rcases advances.name with ⟨sameName, -, -⟩ | ⟨absent, -, -, -⟩ |
        ⟨-, -, -, j, other, hadOpened⟩
      · rw [sameName]
        exact before
      · rw [absent] at before
        cases before
      · have own := isolated.opened isProcess hadOpened
        rw [before] at own
        cases own
        exact (different (isolated.owner isOther isProcess (Or.inr opened)
          (Or.inr hadOpened)).1).elim
  · intro object isName
    rcases advances.name with ⟨sameName, -, same⟩ | ⟨-, taken, -, j, isOpened⟩ |
      ⟨absent, -, -, -⟩
    · rw [sameName] at isName
      obtain ⟨holder, found, i, isFound, opened⟩ := isolated.named isName
      by_cases isPid : holder = pid
      · subst isPid
        cases isProcess.symm.trans isFound
        exact ⟨holder, next, i, Function.update_self .., same ▸ opened⟩
      · exact ⟨holder, found, i, (Function.update_of_ne isPid _ _).trans isFound, opened⟩
    · rw [taken] at isName
      cases isName
      exact ⟨pid, next, j, Function.update_self .., isOpened⟩
    · rw [absent] at isName
      cases isName

/-- A patch of one process keeps all processes isolated. -/
theorem Isolated.store (isolated : Isolated system copies) {index offset : Nat}
    {region : Region} {byte : UInt8} {objects : Objects}
    (isProcess : system.processes pid = some process)
    (isPoint : process.point = .running)
    (isRegion : process.regions[index]? = some region) (inside : offset < region.size)
    (stored : process.maps.storeByte protWrite system.kernel.objects
      (region.osbBase + offset) byte = some objects) :
    Isolated { system with kernel := { system.kernel with objects := objects } }
      (ForkEvent.apply copies (.stored pid index offset byte)) := by
  obtain ⟨contents, isCopy, keeps⟩ := isolated.copied pid process isProcess
  have shows := keeps.stages index region isRegion
  rw [isPoint, ForkPoint.stage] at shows
  obtain ⟨object, base, osb, content⟩ := shows
  have allowed : protWrite protWriteOnly = true := by decide
  have isStore :=
    storeByte_mapped system.kernel.objects byte (osb offset inside) allowed
  cases stored.symm.trans isStore
  have held : process.Holds index object :=
    ForkProcess.holds_of_mapped isRegion (Region.covers_base inside) (base offset inside)
  refine ⟨?_, isolated.owner, isolated.fresh, isolated.opened, isolated.named⟩
  intro asked found isFound
  by_cases same : asked = pid
  · subst same
    cases isProcess.symm.trans isFound
    refine ⟨patchContents index offset byte contents, ?_, keeps.apart, keeps.confined,
      fun i other isOther => ?_, keeps.within⟩
    · rw [ForkEvent.apply, Function.update_self, isCopy, Option.map_some]
    · by_cases here : i = index
      · subst here
        cases isRegion.symm.trans isOther
        rw [isPoint, ForkPoint.stage]
        refine ⟨object, base, osb, fun k below => ?_⟩
        simp only [patchContents, true_and]
        split
        next => rfl
        next => exact content k below
      · have sameContent : patchContents index offset byte contents i = contents i := by
          funext k
          rw [patchContents, if_neg fun isHere => here isHere.1]
        rw [sameContent]
        refine (keeps.stages i other isOther).congr (fun _ _ => rfl) ?_
        intro addr found covers mapped k
        refine if_neg fun isObject => here ?_
        have heldOther : process.Holds i found.object :=
          ForkProcess.holds_of_mapped isOther covers mapped
        rw [isObject.1] at heldOther
        exact isolated.oneHolder isProcess heldOther held
  · obtain ⟨others, isOthers, keepsOther⟩ := isolated.copied asked found isFound
    refine ⟨others, ?_, keepsOther.objects fun i other heldOther k => ?_⟩
    · rw [ForkEvent.apply, Function.update_of_ne same]
      exact isOthers
    · refine if_neg fun isObject => same ?_
      rw [isObject.1] at heldOther
      exact (isolated.owner isFound isProcess heldOther held).1

/-- A fork keeps all processes isolated: neither of the two has anything mapped. -/
theorem Isolated.fork (isolated : Isolated system copies) {child : Nat}
    (isProcess : system.processes pid = some process)
    (isPoint : process.point = .forking) (isFree : system.processes child = none) :
    Isolated { system with
      processes := Function.update
        (Function.update system.processes pid (some { process with point := .opening 0 }))
        child (some { process with point := .opening 0 }) }
      (ForkEvent.apply copies (.forked pid child)) := by
  obtain ⟨contents, isCopy, keeps⟩ := isolated.copied pid process isProcess
  have different : pid ≠ child := by
    rintro rfl
    rw [isProcess] at isFree
    cases isFree
  have keepsBoth : ForkProcess.Keeps system.kernel.objects
      { process with point := .opening 0 } contents := by
    refine keeps.relabel rfl rfl trivial fun i region _ holds => ?_
    rw [isPoint] at holds
    rw [ForkPoint.stage, if_neg (Nat.not_lt_zero i)]
    exact holds
  have holdsNone : ∀ i object,
      ¬ ForkProcess.Holds { process with point := .opening 0 } i object := by
    rintro i object (⟨region, addr, byte, -, -, mapped, -⟩ | opened)
    · have unmapped : process.maps addr = none := keeps.unmapped isPoint addr
      rw [unmapped] at mapped
      cases mapped
    · cases opened
  have cases : ∀ {asked : Nat} {found : ForkProcess},
      Function.update
          (Function.update system.processes pid
            (some { process with point := .opening 0 })) child
          (some { process with point := .opening 0 }) asked = some found →
        ((asked = pid ∨ asked = child) ∧ found = { process with point := .opening 0 }) ∨
          (asked ≠ pid ∧ asked ≠ child ∧ system.processes asked = some found) := by
    intro asked found isFound
    rcases changed_cases isFound with ⟨isChild, same⟩ | ⟨notChild, before⟩
    · exact Or.inl ⟨Or.inr isChild, same.symm⟩
    · rcases changed_cases before with ⟨isParent, same⟩ | ⟨notParent, before⟩
      · exact Or.inl ⟨Or.inl isParent, same.symm⟩
      · exact Or.inr ⟨notParent, notChild, before⟩
  refine ⟨?_, ?_, ?_, ?_, ?_⟩
  · intro asked found isFound
    rcases cases isFound with ⟨isBoth, same⟩ | ⟨notParent, notChild, before⟩
    · subst same
      refine ⟨contents, ?_, keepsBoth⟩
      rcases isBoth with isParent | isChild
      · rw [isParent, ForkEvent.apply, Function.update_of_ne different]
        exact isCopy
      · rw [isChild, ForkEvent.apply, Function.update_self]
        exact isCopy
    · rw [ForkEvent.apply, Function.update_of_ne notChild]
      exact isolated.copied asked found before
  · intro first second one other i j object isOne isOther heldOne heldOther
    rcases cases isOne with ⟨-, same⟩ | ⟨-, -, before⟩
    · subst same
      exact (holdsNone i object heldOne).elim
    · rcases cases isOther with ⟨-, same⟩ | ⟨-, -, beforeOther⟩
      · subst same
        exact (holdsNone j object heldOther).elim
      · exact isolated.owner before beforeOther heldOne heldOther
  · intro asked found i object isFound held
    rcases cases isFound with ⟨-, same⟩ | ⟨-, -, before⟩
    · subst same
      exact (holdsNone i object held).elim
    · exact isolated.fresh before held
  · intro asked found i object isFound opened
    rcases cases isFound with ⟨-, same⟩ | ⟨-, -, before⟩
    · subst same
      cases opened
    · exact isolated.opened before opened
  · intro object isName
    obtain ⟨holder, found, i, isFound, opened⟩ := isolated.named isName
    have notParent : holder ≠ pid := by
      rintro rfl
      cases isProcess.symm.trans isFound
      rw [isPoint] at opened
      cases opened
    have notChild : holder ≠ child := by
      rintro rfl
      rw [isFree] at isFound
      cases isFound
    refine ⟨holder, found, i, ?_, opened⟩
    simp only [Function.update_of_ne notChild, Function.update_of_ne notParent]
    exact isFound

/-- Every step keeps all processes isolated. -/
theorem Isolated.step (isolated : Isolated system copies) {events : List ForkEvent}
    (step : ForkStep system events last) :
    Isolated last (events.foldl ForkEvent.apply copies) := by
  cases step with
  | advance isProcess advances => exact isolated.advance isProcess advances
  | wait => exact isolated
  | store isProcess isPoint isRegion inside stored =>
      exact isolated.store isProcess isPoint isRegion inside stored
  | fork isProcess isPoint isFree => exact isolated.fork isProcess isPoint isFree

/-- Every run keeps all processes isolated. -/
theorem Isolated.run (isolated : Isolated system copies) {events : List ForkEvent}
    (run : ForkRun system events last) :
    Isolated last (events.foldl ForkEvent.apply copies) := by
  induction run with
  | refl => exact isolated
  | tail _ step inductionHypothesis =>
      rw [List.foldl_append]
      exact inductionHypothesis.step step

end Runs

end Mcfi
