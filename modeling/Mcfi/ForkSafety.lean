import Mcfi.ForkIsolation

namespace Mcfi

open SharedMap

/-!
# What forks leave to the processes

A process that runs loads from its mappings its own contents, and no other process
maps the objects that they lie in.  A process in `rock_fork` never faults, and when it
waits for the name then the process that has it does not wait.
-/

section Launches

/-- What `create_parallel_mapping` has left to the processes that run. -/
structure Launched (system : ForkSystem) (copies : ForkCopies) : Prop where
  running : ∀ pid process, system.processes pid = some process →
    process.point = .running
  unnamed : system.kernel.shm = none
  shown : ∀ pid process, system.processes pid = some process →
    ∃ contents, copies pid = some contents ∧ RegionsApart process.regions ∧
      (∀ addr byte, process.maps addr = some byte →
        ∃ region ∈ process.regions, region.Covers addr) ∧
      ∀ i (region : Region), process.regions[i]? = some region →
        region.Shows system.kernel.objects process.maps (contents i)
  owner : ∀ {first second : Nat} {process other : ForkProcess} {i j object : Nat},
    system.processes first = some process → system.processes second = some other →
      process.Holds i object → other.Holds j object → first = second ∧ i = j
  fresh : ∀ {pid : Nat} {process : ForkProcess} {i object : Nat},
    system.processes pid = some process → process.Holds i object →
      object < system.kernel.fresh

variable {start last : ForkSystem} {copies : ForkCopies} {events : List ForkEvent}
  {pid : Nat} {process : ForkProcess}

/-- The processes that run are isolated at first. -/
theorem Launched.isolated (launched : Launched start copies) :
    Isolated start copies where
  copied pid process isProcess := by
    obtain ⟨contents, isCopy, apart, confined, shows⟩ :=
      launched.shown pid process isProcess
    have isPoint := launched.running pid process isProcess
    refine ⟨contents, isCopy, apart, confined, ?_, ?_⟩
    · intro i region isRegion
      rw [isPoint]
      exact shows i region isRegion
    · rw [isPoint]
      trivial
  owner := launched.owner
  fresh := launched.fresh
  opened := by
    intro pid process i object isProcess opened
    rw [launched.running pid process isProcess] at opened
    cases opened
  named := by
    intro object isName
    rw [launched.unnamed] at isName
    cases isName

end Launches

section Progress

variable {system last : ForkSystem} {copies : ForkCopies} {kernel next : ForkKernel}
  {process after : ForkProcess} {contents : Contents} {pid : Nat}

/-- The steps that are left of a fork of so many mappings, when it does not wait. -/
def ForkPoint.remaining (count : Nat) : ForkPoint → Nat
  | running => 0
  | saving index => 7 * count + 4 + (count - index)
  | unmapping index => 6 * count + 3 + (count - index)
  | forking => 6 * count + 2
  | opening index => 6 * (count - index) + 1
  | truncating index _ => 6 * (count - (index + 1)) + 6
  | mappingBase index _ => 6 * (count - (index + 1)) + 5
  | mappingOsb index _ => 6 * (count - (index + 1)) + 4
  | unlinking index _ => 6 * (count - (index + 1)) + 3
  | copying index => 6 * (count - (index + 1)) + 2

/-- A step leaves the modules. -/
theorem Advance.modules_eq (advances : Advance kernel process next after) :
    after.modules = process.modules := by
  cases advances <;> rfl

/-- A step leaves the mappings of the modules. -/
theorem Advance.regions_eq (advances : Advance kernel process next after) :
    after.regions = process.regions := by
  rw [ForkProcess.regions, advances.modules_eq, ← ForkProcess.regions]

/-- A step of a process in a fork brings it nearer to its return. -/
theorem Advance.remaining_lt (advances : Advance kernel process next after)
    (inFork : process.point ≠ .running) :
    after.point.remaining process.regions.length <
      process.point.remaining process.regions.length := by
  cases advances with
  | call isPoint => exact (inFork isPoint).elim
  | save isPoint isRegion _ | unmap isPoint isRegion | create isPoint isRegion _
  | mapBase isPoint isRegion | mapOsb isPoint isRegion | copy isPoint isRegion _ _ =>
      have below := (List.getElem?_eq_some_iff.mp isRegion).1
      rw [isPoint]
      simp only [ForkPoint.remaining]
      omega
  | allSaved isPoint _ | allUnmapped isPoint _ | forkFails isPoint | truncate isPoint
  | unlink isPoint | finish isPoint _ =>
      rw [isPoint]
      simp only [ForkPoint.remaining]
      omega

/-- A process in a fork can take a step, or waits for the name. -/
theorem ForkProcess.Keeps.advance_or_wait (keeps : process.Keeps kernel.objects contents)
    (inFork : process.point ≠ .running) :
    (∃ next after, Advance kernel process next after) ∨
      ∃ index object, process.point = .opening index ∧ kernel.shm = some object := by
  have within := keeps.within
  cases isPoint : process.point with
  | running => exact (inFork isPoint).elim
  | saving index =>
      cases isRegion : process.regions[index]? with
      | none => exact Or.inl ⟨_, _, .allSaved isPoint isRegion⟩
      | some region =>
          have shows := keeps.stages index region isRegion
          rw [isPoint, ForkPoint.stage, if_neg (Nat.lt_irrefl index)] at shows
          exact Or.inl ⟨_, _, .save isPoint isRegion
            (shows.load (ForkProcess.loadable_prot isRegion))⟩
  | unmapping index =>
      cases isRegion : process.regions[index]? with
      | none => exact Or.inl ⟨_, _, .allUnmapped isPoint isRegion⟩
      | some region => exact Or.inl ⟨_, _, .unmap isPoint isRegion⟩
  | forking => exact Or.inl ⟨_, _, .forkFails isPoint⟩
  | opening index =>
      cases isRegion : process.regions[index]? with
      | none => exact Or.inl ⟨_, _, .finish isPoint isRegion⟩
      | some region =>
          cases isName : kernel.shm with
          | none => exact Or.inl ⟨_, _, .create isPoint isRegion isName⟩
          | some object => exact Or.inr ⟨index, object, rfl, rfl⟩
  | truncating index object => exact Or.inl ⟨_, _, .truncate isPoint⟩
  | mappingBase index object =>
      rw [isPoint] at within
      exact Or.inl ⟨_, _, .mapBase isPoint (List.getElem?_eq_getElem within)⟩
  | mappingOsb index object =>
      rw [isPoint] at within
      exact Or.inl ⟨_, _, .mapOsb isPoint (List.getElem?_eq_getElem within)⟩
  | unlinking index object => exact Or.inl ⟨_, _, .unlink isPoint⟩
  | copying index =>
      rw [isPoint] at within
      have isRegion := List.getElem?_eq_getElem within
      have holds := keeps.stages index _ isRegion
      rw [isPoint, ForkPoint.stage, stage_here] at holds
      obtain ⟨isSaved, object, -, osb⟩ := holds
      obtain ⟨stored, copied, -, -⟩ := ForkProcess.store_content
        kernel.objects (contents index) isRegion osb
      exact Or.inl ⟨_, _, .copy isPoint isRegion isSaved copied⟩

/-- Two runs, one after the other. -/
theorem ForkRun.trans {first middle : ForkSystem} {events later : List ForkEvent}
    (run : ForkRun first events middle) (next : ForkRun middle later last) :
    ForkRun first (events ++ later) last := by
  induction next with
  | refl =>
      rw [List.append_nil]
      exact run
  | tail _ step inductionHypothesis =>
      rw [← List.append_assoc]
      exact .tail inductionHypothesis step

/-- What one process alone can reach of a system. -/
structure AloneReaches (system : ForkSystem) (pid : Nat) (process : ForkProcess)
    (last : ForkSystem) (reached : ForkProcess) : Prop where
  run : ForkRun system [] last
  found : last.processes pid = some reached
  modules_eq : reached.modules = process.modules
  others : ∀ other, other ≠ pid → last.processes other = system.processes other

/-- A step, and what the process can reach after it. -/
private theorem AloneReaches.head {reached : ForkProcess}
    (isProcess : system.processes pid = some process)
    (advances : Advance system.kernel process kernel after)
    (rest : AloneReaches ⟨kernel, Function.update system.processes pid (some after)⟩ pid after
      last reached) :
    AloneReaches system pid process last reached where
  run := (ForkRun.tail .refl (.advance isProcess advances)).trans rest.run
  found := rest.found
  modules_eq := rest.modules_eq.trans advances.modules_eq
  others other different := by
    rw [rest.others other different]
    exact Function.update_of_ne different _ _

/-- The process that has the name can give it back. -/
private theorem Isolated.release {steps : Nat} (isolated : Isolated system copies)
    (isProcess : system.processes pid = some process)
    (bounded : process.point.remaining process.regions.length < steps)
    (hasName : process.point.opened.isSome = true) :
    ∃ last released, AloneReaches system pid process last released ∧
      last.kernel.shm = none := by
  induction steps generalizing system process with
  | zero => exact (Nat.not_lt_zero _ bounded).elim
  | succ steps inductionHypothesis =>
      obtain ⟨contents, -, keeps⟩ := isolated.copied pid process isProcess
      have inFork : process.point ≠ .running := by
        intro isPoint
        rw [isPoint] at hasName
        cases hasName
      rcases keeps.advance_or_wait inFork with ⟨kernel, after, advances⟩ |
        ⟨index, object, isPoint, -⟩
      · have isolatedNext := isolated.advance isProcess advances
        have isAfter : Function.update system.processes pid (some after) pid = some after :=
          Function.update_self ..
        have nearer := advances.remaining_lt inFork
        rcases advances.name with ⟨-, -, same⟩ | ⟨absent, -, -, -⟩ | ⟨absent, -, -, -⟩
        · obtain ⟨last, released, reaches, free⟩ :=
            inductionHypothesis isolatedNext isAfter (by
            rw [advances.regions_eq]
            omega) (by
            rw [same]
            exact hasName)
          exact ⟨last, released, reaches.head isProcess advances, free⟩
        · obtain ⟨⟨i, object⟩, opened⟩ := Option.isSome_iff_exists.mp hasName
          have present := isolated.opened isProcess opened
          rw [absent] at present
          cases present
        · exact ⟨_, after, AloneReaches.head isProcess advances
            ⟨.refl, isAfter, rfl, fun _ _ => rfl⟩, absent⟩
      · rw [isPoint] at hasName
        cases hasName

/-- A process in a fork can return when no other process has the name. -/
private theorem Isolated.return_alone {steps : Nat}
    (isolated : Isolated system copies)
    (isProcess : system.processes pid = some process)
    (bounded : process.point.remaining process.regions.length < steps)
    (free : system.kernel.shm = none ∨ process.point.opened.isSome = true) :
    ∃ last returned, AloneReaches system pid process last returned ∧
      returned.point = .running := by
  induction steps generalizing system process with
  | zero => exact (Nat.not_lt_zero _ bounded).elim
  | succ steps inductionHypothesis =>
      by_cases isPoint : process.point = .running
      · exact ⟨system, process, ⟨.refl, isProcess, rfl, fun _ _ => rfl⟩, isPoint⟩
      · obtain ⟨contents, -, keeps⟩ := isolated.copied pid process isProcess
        rcases keeps.advance_or_wait isPoint with ⟨kernel, after, advances⟩ |
          ⟨index, object, atOpen, present⟩
        · have isolatedNext := isolated.advance isProcess advances
          have isAfter : Function.update system.processes pid (some after) pid =
              some after := Function.update_self ..
          have nearer := advances.remaining_lt isPoint
          have freeNext : kernel.shm = none ∨ after.point.opened.isSome = true := by
            rcases advances.name with ⟨sameName, -, same⟩ | ⟨-, -, -, i, opened⟩ |
              ⟨absent, -, -, -⟩
            · rw [sameName, same]
              exact free
            · rw [opened]
              exact Or.inr rfl
            · exact Or.inl absent
          obtain ⟨last, returned, reaches, isRunning⟩ :=
            inductionHypothesis isolatedNext isAfter (by
              rw [advances.regions_eq]
              omega) freeNext
          exact ⟨last, returned, reaches.head isProcess advances, isRunning⟩
        · rw [atOpen, present] at free
          rcases free with free | free <;> cases free

end Progress

namespace ForkExample

/-- A page of code. -/
def codePage : ParallelModule where
  toCodeModule :=
    { allocCodeModule with
      baseAddr := 0x400000
      baseAligned := programBase_aligned
      sz := pageSize
      sizeAligned := Nat.mod_self pageSize
      instrumented := true }
  osbBaseAddr := 0x800000
  osbGotplt := 0

/-- The mapping of the page. -/
def codeRegion : Region := ⟨0x400000, 0x800000, pageSize, protExecOnly⟩

/-- The process has the page mapped twice. -/
def codeProcess : ForkProcess where
  modules := [codePage]
  saved := fun _ => none
  maps := mapObject (mapObject (fun _ => none) 0x400000 pageSize 0 protExecOnly)
    0x800000 pageSize 0 protWriteOnly
  point := .running

/-- The only process. -/
def codeSystem : ForkSystem where
  kernel := ⟨fun _ _ => 0, 1, none⟩
  processes := fun pid => if pid = 7 then some codeProcess else none

/-- The page is empty. -/
def codeCopies : ForkCopies :=
  Function.update (fun _ => none) 7 (some fun _ _ => 0)

theorem regions_code : codeProcess.regions = [codeRegion] := by decide

theorem process_code {pid : Nat} {process : ForkProcess}
    (isProcess : codeSystem.processes pid = some process) :
    pid = 7 ∧ process = codeProcess := by
  change (if pid = 7 then some codeProcess else none) = some process at isProcess
  split at isProcess
  next same =>
    cases isProcess
    exact ⟨same, rfl⟩
  next => cases isProcess

theorem found_code : codeSystem.processes 7 = some codeProcess := by
  rfl

theorem region_code {i : Nat} {region : Region}
    (isRegion : codeProcess.regions[i]? = some region) : i = 0 ∧ region = codeRegion := by
  rw [regions_code] at isRegion
  cases i with
  | zero =>
      cases isRegion
      exact ⟨rfl, rfl⟩
  | succ i => cases isRegion

theorem mapped_code {addr : Nat} {byte : MappedByte UInt32}
    (mapped : codeProcess.maps addr = some byte) :
    codeRegion.Covers addr ∧ byte.object = 0 := by
  rcases mapObject_cases mapped with ⟨low, high, isObject⟩ | before
  · exact ⟨Or.inr ⟨low, high⟩, isObject⟩
  · rcases mapObject_cases before with ⟨low, high, isObject⟩ | none
    · exact ⟨Or.inl ⟨low, high⟩, isObject⟩
    · cases none

theorem places_code (addr : Nat) (low : codeRegion.base ≤ addr)
    (high : addr < codeRegion.base + codeRegion.size) :
    ¬ (codeRegion.osbBase ≤ addr ∧ addr < codeRegion.osbBase + codeRegion.size) := by
  simp only [codeRegion, pageSize] at low high ⊢
  omega

theorem osb_code : codeRegion.OsbShows codeProcess.maps 0 := by
  intro k inside
  exact mapObject_inside inside

theorem shows_code : codeRegion.Shows (fun _ _ => 0) codeProcess.maps fun _ => 0 := by
  refine ⟨0, fun k inside => ?_, osb_code, fun _ _ => rfl⟩
  refine (mapObject_outside ?_).trans (mapObject_inside inside)
  exact places_code _ (Nat.le_add_right _ _) (Nat.add_lt_add_left inside _)

theorem launched_code : Launched codeSystem codeCopies where
  running := by
    intro pid process isProcess
    rw [(process_code isProcess).2]
    rfl
  unnamed := rfl
  shown := by
    intro pid process isProcess
    obtain ⟨same, isCode⟩ := process_code isProcess
    subst same isCode
    refine ⟨fun _ _ => 0, Function.update_self .., ⟨?_, ?_⟩, ?_, ?_⟩
    · intro region mem
      rw [regions_code] at mem
      cases List.mem_singleton.mp mem
      exact places_code
    · intro i j first second isFirst isSecond different
      exact (different ((region_code isFirst).1.trans (region_code isSecond).1.symm)).elim
    · intro addr byte mapped
      refine ⟨codeRegion, ?_, (mapped_code mapped).1⟩
      rw [regions_code]
      exact List.mem_singleton.mpr rfl
    · intro i region isRegion
      rw [(region_code isRegion).2]
      exact shows_code
  owner := by
    intro first second process other i j object isProcess isOther held heldOther
    obtain ⟨isFirst, isCode⟩ := process_code isProcess
    obtain ⟨isSecond, isOtherCode⟩ := process_code isOther
    subst isCode isOtherCode
    refine ⟨isFirst.trans isSecond.symm, ?_⟩
    rcases held with ⟨region, addr, byte, isRegion, -⟩ | opened
    · rcases heldOther with ⟨region', addr', byte', isRegion', -⟩ | opened
      · exact (region_code isRegion).1.trans (region_code isRegion').1.symm
      · cases opened
    · cases opened
  fresh := by
    intro pid process i object isProcess held
    obtain ⟨-, isCode⟩ := process_code isProcess
    subst isCode
    rcases held with ⟨region, addr, byte, -, -, mapped, isObject⟩ | opened
    · rw [← isObject, (mapped_code mapped).2]
      exact Nat.zero_lt_one
    · cases opened

/-- The process patches a byte of its code. -/
theorem patched_code : ∃ last,
    ForkRun codeSystem [.stored 7 0 5 0x90] last ∧
      last.processes 7 = some codeProcess := by
  have mapped : codeProcess.maps (codeRegion.osbBase + 5) =
      some ⟨0, 5, protWriteOnly⟩ := osb_code 5 (by decide)
  have allowed : protWrite protWriteOnly = true := by decide
  have isStore := storeByte_mapped codeSystem.kernel.objects 0x90 mapped allowed
  have isRegion : codeProcess.regions[0]? = some codeRegion := by
    rw [regions_code]
    rfl
  exact ⟨_, .tail .refl (.store found_code rfl isRegion (by decide) isStore), found_code⟩

/-- The process has called `rock_fork`. -/
theorem called_code : ForkRun codeSystem []
    ⟨codeSystem.kernel, Function.update codeSystem.processes 7
      (some { codeProcess with point := .saving 0 })⟩ :=
  .tail .refl (.advance found_code (.call rfl))

end ForkExample

end Mcfi
