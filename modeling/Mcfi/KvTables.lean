import Mcfi.UthashTables

namespace Mcfi

/-!
# The dictionaries of `kv.h`, as they lie in memory

A dictionary is the head of a hash table of `keyvalue` structures, whose keys are the
eight bytes of a pointer.  All dictionaries lie in one heap, and take their items from
one allocator.
-/

namespace KvTable

variable {ν : Type}

/-- The bytes of a key in memory, from the lowest on. -/
def keyBytes (key : UInt64) : List UInt8 :=
  (List.range 8).map fun i => UInt8.ofNat (key.toNat / 256 ^ i)

/-- `dict_find`, which returns a pointer. -/
def dictFind (heap : HashHeap ν) (dict : HashHead) (key : UInt64) : Rt Nat :=
  hashFind heap dict (keyBytes key)

/-- `dict_add`, with what `malloc` returns to `new_kv`. -/
def dictAdd (malloc : Nat → Bool) (heap : HashHeap ν) (dict : HashHead) (key : UInt64)
    (value : ν) (kv : Nat) : Rt (HashHeap ν × HashHead) := do
  let found ← dictFind heap dict key
  check "dict_add" (found == 0)
  if kv = 0 then .error (.quit "Out of memory")
  else
    hashAddKeyptr malloc { heap with data := Function.update heap.data kv value } dict
      (keyBytes key) kv

/-- The memory of all dictionaries, and the blocks of it that are allocated. -/
structure KvHeap (ν : Type) where
  heap : HashHeap ν
  live : Nat → Bool

/--
`free`: a block that is not allocated is an error, and what the allocator writes into
one is not known.
-/
def free (scribble : HashHeap ν → Nat → HashHeap ν) (memory : KvHeap ν) (kv : Nat) :
    Rt (KvHeap ν) :=
  if memory.live kv then
    .ok ⟨scribble memory.heap kv, Function.update memory.live kv false⟩
  else .error (.pageFault "free")

/-- `HASH_DEL` and `free`, as `dict_del` and `dict_clear` call them. -/
def dictRemove (scribble : HashHeap ν → Nat → HashHeap ν)
    (state : KvHeap ν × HashHead) (kv : Nat) : Rt (KvHeap ν × HashHead) := do
  let deleted := hashDelete state.1.heap state.2 kv
  let memory ← free scribble { state.1 with heap := deleted.1 } kv
  return (memory, deleted.2)

/-- `dict_del`. -/
def dictDel (scribble : HashHeap ν → Nat → HashHeap ν) (memory : KvHeap ν)
    (dict : HashHead) (key : UInt64) : Rt (KvHeap ν × HashHead) := do
  let kv ← dictFind memory.heap dict key
  if kv = 0 then return (memory, dict)
  else dictRemove scribble (memory, dict) kv

/-- `dict_clear`; `dict_dtor` calls its functions on the key and the value as well. -/
def dictClear (scribble : HashHeap ν → Nat → HashHeap ν) (memory : KvHeap ν)
    (dict : HashHead) : Rt (KvHeap ν × HashHead) :=
  hashIter (fun state => state.1.heap.app) (dictRemove scribble) addressBound
    (memory, dict) dict.head
    (if dict.head = 0 then 0 else memory.heap.app.next dict.head)

/-- What a loop with `HASH_ITER` over a dictionary reads. -/
def dictItems (heap : HashHeap ν) (dict : HashHead) : Rt (List (List UInt8 × ν)) :=
  hashIter (fun _ => heap.app)
    (fun read kv => .ok (read ++ [(heap.key kv, heap.data kv)])) addressBound []
    dict.head (if dict.head = 0 then 0 else heap.app.next dict.head)

/-- Any number of dictionaries in one memory. -/
structure KvState (ν : Type) where
  memory : KvHeap ν
  dicts : Nat → HashHead

/-- A call of a dictionary's functions that changes it. -/
inductive KvCall (ν : Type) where
  | add (dict : Nat) (key : UInt64) (value : ν) (kv : Nat)
  | del (dict : Nat) (key : UInt64)
  | clear (dict : Nat)

/-- The call, on the memory. -/
def KvCall.run (malloc : Nat → Bool) (scribble : HashHeap ν → Nat → HashHeap ν)
    (state : KvState ν) : KvCall ν → Rt (KvState ν)
  | add dict key value kv => do
      let added ← dictAdd malloc state.memory.heap (state.dicts dict) key value kv
      return {
        memory := ⟨added.1, Function.update state.memory.live kv true⟩
        dicts := Function.update state.dicts dict added.2 }
  | del dict key => do
      let deleted ← dictDel scribble state.memory (state.dicts dict) key
      return ⟨deleted.1, Function.update state.dicts dict deleted.2⟩
  | clear dict => do
      let cleared ← dictClear scribble state.memory (state.dicts dict)
      return ⟨cleared.1, Function.update state.dicts dict cleared.2⟩

/-- The call, on dictionaries in insertion order. -/
def KvCall.spec (dicts : Nat → OrdDict UInt64 ν) :
    KvCall ν → Rt (Nat → OrdDict UInt64 ν)
  | add dict key value _ => do
      return Function.update dicts dict (← Mcfi.dictAdd (dicts dict) key value)
  | del dict key => .ok (Function.update dicts dict (Mcfi.dictDel (dicts dict) key))
  | clear dict => .ok (Function.update dicts dict ∅)

/-- What `malloc` returns: null, or a block of the region that is not allocated. -/
def KvCall.Allocates (alloc : Allocator) (live : Nat → Bool) : KvCall ν → Prop
  | add _ _ _ kv => kv = 0 ∨
      (alloc.brk0 ≤ kv ∧ kv < alloc.brk0 + brkSize ∧ live kv = false)
  | _ => True

/-- The states that calls reach from empty dictionaries. -/
inductive KvRun (alloc : Allocator) (scribble : HashHeap ν → Nat → HashHeap ν)
    (start : KvState ν) : List (KvCall ν) → KvState ν → Prop where
  | refl : KvRun alloc scribble start [] start
  | tail {calls : List (KvCall ν)} {state next : KvState ν} {call : KvCall ν}
      (run : KvRun alloc scribble start calls state)
      (allocates : call.Allocates alloc state.memory.live)
      (returned : call.run alloc.grants scribble state = .ok next) :
      KvRun alloc scribble start (calls ++ [call]) next

end KvTable

end Mcfi
