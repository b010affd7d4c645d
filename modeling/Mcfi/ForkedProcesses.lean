import Mcfi.Lib.SharedObjects
import Mcfi.MemoryCalls

namespace Mcfi

/-!
# Forking a process with parallel mappings

The code and the `.got.plt` of a module are shared memory objects that are mapped
twice: in the sandbox without the right to write, and outside with it.  A fork would
leave both processes with the same objects, so that `rock_fork` saves the contents,
unmaps both mappings, forks, and then each of the two processes maps objects of its
own.  All processes create their objects under one name, so that the name is also
what they wait for.
-/

section Layout

/-- `PROT_READ`. -/
def protReadOnly : UInt32 := 1

/-- `PROT_WRITE`. -/
def protWriteOnly : UInt32 := 2

/-- `PROT_EXEC`. -/
def protExecOnly : UInt32 := 4

/-- The processor loads from a page with any right. -/
def loadable (prot : UInt32) : Bool :=
  prot != 0

/-- A module with the places of its mappings outside the sandbox. -/
structure ParallelModule extends CodeModule where
  osbBaseAddr : Nat
  osbGotplt : Nat

/-- A parallel mapping: two places, their size and the rights in the sandbox. -/
structure Region where
  base : Nat
  osbBase : Nat
  size : Nat
  prot : UInt32
  deriving DecidableEq

/-- The mappings of a module, in the order of the loops of `rock_fork`. -/
def ParallelModule.regions (m : ParallelModule) : List Region :=
  ⟨m.baseAddr, m.osbBaseAddr, m.sz, protExecOnly⟩ ::
    if m.instrumented && decide (0 < m.gotpltsz) then
      [⟨m.gotplt, m.osbGotplt, m.gotpltsz, protReadOnly⟩]
    else []

/-- An address lies in one of the two places of a mapping. -/
def Region.Covers (region : Region) (addr : Nat) : Prop :=
  (region.base ≤ addr ∧ addr < region.base + region.size) ∨
    (region.osbBase ≤ addr ∧ addr < region.osbBase + region.size)

/-- All places of the mappings are apart. -/
structure RegionsApart (regions : List Region) : Prop where
  own : ∀ region ∈ regions, ∀ addr,
    region.base ≤ addr → addr < region.base + region.size →
      ¬ (region.osbBase ≤ addr ∧ addr < region.osbBase + region.size)
  others : ∀ {i j : Nat} {first second : Region},
    regions[i]? = some first → regions[j]? = some second → i ≠ j →
      ∀ addr, first.Covers addr → ¬ second.Covers addr

end Layout

section Processes

/-- Where a process stands: in the program, or in a loop of `rock_fork`. -/
inductive ForkPoint where
  | running
  | saving (index : Nat)
  | unmapping (index : Nat)
  | forking
  | opening (index : Nat)
  | truncating (index object : Nat)
  | mappingBase (index object : Nat)
  | mappingOsb (index object : Nat)
  | unlinking (index object : Nat)
  | copying (index : Nat)
  deriving DecidableEq

/-- The object that a process has opened, and the mapping it is for. -/
def ForkPoint.opened : ForkPoint → Option (Nat × Nat)
  | truncating index object => some (index, object)
  | mappingBase index object => some (index, object)
  | mappingOsb index object => some (index, object)
  | unlinking index object => some (index, object)
  | _ => none

/--
A process: its modules, the contents that it has saved (`m->code` and
`m->gotpltcontent`), and its parallel mappings.
-/
structure ForkProcess where
  modules : List ParallelModule
  saved : Nat → Option (List UInt8)
  maps : SharedMap UInt32
  point : ForkPoint

/-- The mappings of all modules. -/
def ForkProcess.regions (process : ForkProcess) : List Region :=
  process.modules.flatMap ParallelModule.regions

/-- The memory objects, and the one that `/dev/shm/mcfi` names. -/
structure ForkKernel where
  objects : Objects
  fresh : Nat
  shm : Option Nat

/-- Any number of processes on one kernel. -/
structure ForkSystem where
  kernel : ForkKernel
  processes : Nat → Option ForkProcess

/-- `save_content`, `restore_parallel_mapping`, `restore_content`: one step. -/
inductive Advance : ForkKernel → ForkProcess → ForkKernel → ForkProcess → Prop where
  | call {kernel : ForkKernel} {process : ForkProcess}
      (isPoint : process.point = .running) :
      Advance kernel process kernel { process with point := .saving 0 }
  | save {kernel : ForkKernel} {process : ForkProcess} {index : Nat} {region : Region}
      {bytes : List UInt8} (isPoint : process.point = .saving index)
      (isRegion : process.regions[index]? = some region)
      (copied : process.maps.load loadable kernel.objects region.base region.size =
        some bytes) :
      Advance kernel process kernel { process with
        saved := Function.update process.saved index (some bytes)
        point := .saving (index + 1) }
  | allSaved {kernel : ForkKernel} {process : ForkProcess} {index : Nat}
      (isPoint : process.point = .saving index)
      (atEnd : process.regions[index]? = none) :
      Advance kernel process kernel { process with point := .unmapping 0 }
  | unmap {kernel : ForkKernel} {process : ForkProcess} {index : Nat} {region : Region}
      (isPoint : process.point = .unmapping index)
      (isRegion : process.regions[index]? = some region) :
      Advance kernel process kernel { process with
        maps := (process.maps.unmap region.base region.size).unmap
          region.osbBase region.size
        point := .unmapping (index + 1) }
  | allUnmapped {kernel : ForkKernel} {process : ForkProcess} {index : Nat}
      (isPoint : process.point = .unmapping index)
      (atEnd : process.regions[index]? = none) :
      Advance kernel process kernel { process with point := .forking }
  | forkFails {kernel : ForkKernel} {process : ForkProcess}
      (isPoint : process.point = .forking) :
      Advance kernel process kernel { process with point := .opening 0 }
  | create {kernel : ForkKernel} {process : ForkProcess} {index : Nat} {region : Region}
      (isPoint : process.point = .opening index)
      (isRegion : process.regions[index]? = some region)
      (absent : kernel.shm = none) :
      Advance kernel process
        { kernel with fresh := kernel.fresh + 1, shm := some kernel.fresh }
        { process with point := .truncating index kernel.fresh }
  | truncate {kernel : ForkKernel} {process : ForkProcess} {index object : Nat}
      (isPoint : process.point = .truncating index object) :
      Advance kernel process
        { kernel with objects := Function.update kernel.objects object fun _ => 0 }
        { process with point := .mappingBase index object }
  | mapBase {kernel : ForkKernel} {process : ForkProcess} {index object : Nat}
      {region : Region} (isPoint : process.point = .mappingBase index object)
      (isRegion : process.regions[index]? = some region) :
      Advance kernel process kernel { process with
        maps := process.maps.mapObject region.base region.size object region.prot
        point := .mappingOsb index object }
  | mapOsb {kernel : ForkKernel} {process : ForkProcess} {index object : Nat}
      {region : Region} (isPoint : process.point = .mappingOsb index object)
      (isRegion : process.regions[index]? = some region) :
      Advance kernel process kernel { process with
        maps := process.maps.mapObject region.osbBase region.size object protWriteOnly
        point := .unlinking index object }
  | unlink {kernel : ForkKernel} {process : ForkProcess} {index object : Nat}
      (isPoint : process.point = .unlinking index object) :
      Advance kernel process { kernel with shm := none }
        { process with point := .copying index }
  | copy {kernel : ForkKernel} {process : ForkProcess} {index : Nat} {region : Region}
      {bytes : List UInt8} {objects : Objects}
      (isPoint : process.point = .copying index)
      (isRegion : process.regions[index]? = some region)
      (isSaved : process.saved index = some bytes)
      (copied : process.maps.store protWrite kernel.objects region.osbBase bytes =
        some objects) :
      Advance kernel process { kernel with objects := objects }
        { process with
          saved := Function.update process.saved index none
          point := .opening (index + 1) }
  | finish {kernel : ForkKernel} {process : ForkProcess} {index : Nat}
      (isPoint : process.point = .opening index)
      (atEnd : process.regions[index]? = none) :
      Advance kernel process kernel { process with point := .running }

/-- What can be seen of a step: a patch of a process, or a fork. -/
inductive ForkEvent where
  | stored (pid region offset : Nat) (byte : UInt8)
  | forked (parent child : Nat)

/-- One step of one process. -/
inductive ForkStep : ForkSystem → List ForkEvent → ForkSystem → Prop where
  | advance {system : ForkSystem} {pid : Nat} {process next : ForkProcess}
      {kernel : ForkKernel} (isProcess : system.processes pid = some process)
      (advances : Advance system.kernel process kernel next) :
      ForkStep system []
        ⟨kernel, Function.update system.processes pid (some next)⟩
  | wait {system : ForkSystem} {pid index object : Nat} {process : ForkProcess}
      (isProcess : system.processes pid = some process)
      (isPoint : process.point = .opening index)
      (notEnd : index < process.regions.length)
      (present : system.kernel.shm = some object) :
      ForkStep system [] system
  | store {system : ForkSystem} {pid index offset : Nat} {process : ForkProcess}
      {region : Region} {byte : UInt8} {objects : Objects}
      (isProcess : system.processes pid = some process)
      (isPoint : process.point = .running)
      (isRegion : process.regions[index]? = some region) (inside : offset < region.size)
      (stored : process.maps.storeByte protWrite system.kernel.objects
        (region.osbBase + offset) byte = some objects) :
      ForkStep system [.stored pid index offset byte]
        { system with kernel := { system.kernel with objects := objects } }
  | fork {system : ForkSystem} {parent child : Nat} {process : ForkProcess}
      (isProcess : system.processes parent = some process)
      (isPoint : process.point = .forking) (isFree : system.processes child = none) :
      ForkStep system [.forked parent child] { system with
        processes := Function.update
          (Function.update system.processes parent
            (some { process with point := .opening 0 }))
          child (some { process with point := .opening 0 }) }

/-- The runs of any number of processes, in any order of their steps. -/
inductive ForkRun (start : ForkSystem) : List ForkEvent → ForkSystem → Prop where
  | refl : ForkRun start [] start
  | tail {events later : List ForkEvent} {middle last : ForkSystem}
      (run : ForkRun start events middle) (step : ForkStep middle later last) :
      ForkRun start (events ++ later) last

end Processes

end Mcfi
