import Mathlib.Algebra.Group.Nat.Defs
import Mcfi.Kv
import Mcfi.Lib.LinkedChain

namespace Mcfi

/-!
# The hash tables of `uthash.h`

A table is a linked list of its items in the order in which they were added, and an
array of buckets, each with the linked list of the items that hash to it.  The items
belong to the user: each has a handle with the links of both lists, so that all tables
lie in one heap.
-/

section Hash

/-- `HASH_JEN_MIX`. -/
def hashJenMix (a b c : UInt32) : UInt32 × UInt32 × UInt32 :=
  let a := (a - b - c) ^^^ (c >>> 13)
  let b := (b - c - a) ^^^ (a <<< 8)
  let c := (c - a - b) ^^^ (b >>> 13)
  let a := (a - b - c) ^^^ (c >>> 12)
  let b := (b - c - a) ^^^ (a <<< 16)
  let c := (c - a - b) ^^^ (b >>> 5)
  let a := (a - b - c) ^^^ (c >>> 3)
  let b := (b - c - a) ^^^ (a <<< 10)
  let c := (c - a - b) ^^^ (b >>> 15)
  (a, b, c)

/-- Up to four bytes, from the lowest on; a byte that is not there adds nothing. -/
def jenWord (key : List UInt8) (first : Nat) : UInt32 :=
  let byte (index : Nat) : UInt32 := (key.getD (first + index) 0).toUInt32
  byte 0 + (byte 1 <<< 8) + (byte 2 <<< 16) + (byte 3 <<< 24)

/-- The bytes behind the last twelve, which start above the length in `hashv`. -/
def jenTail (key : List UInt8) : UInt32 :=
  let byte (index : Nat) : UInt32 := (key.getD index 0).toUInt32
  (byte 8 <<< 8) + (byte 9 <<< 16) + (byte 10 <<< 24)

/-- The loop of `HASH_JEN`, twelve bytes at a time, and its `switch`. -/
def hashJen.loop (keylen : UInt32) : Nat → List UInt8 → UInt32 → UInt32 → UInt32 → UInt32
  | 0, key, i, j, hashv =>
      (hashJenMix (i + jenWord key 0) (j + jenWord key 4)
        (hashv + keylen + jenTail key)).2.2
  | blocks + 1, key, i, j, hashv =>
      let mixed :=
        hashJenMix (i + jenWord key 0) (j + jenWord key 4) (hashv + jenWord key 8)
      hashJen.loop keylen blocks (key.drop 12) mixed.1 mixed.2.1 mixed.2.2

/-- `HASH_JEN`, without the bucket. -/
def hashJen (key : List UInt8) : UInt32 :=
  hashJen.loop (UInt32.ofNat key.length) (key.length / 12) key 0x9e3779b9 0x9e3779b9
    0xfeedbeef

/-- `HASH_TO_BKT`. -/
def hashToBkt (hashv numBkts : UInt32) : Nat :=
  (hashv &&& (numBkts - 1)).toNat

end Hash

section Tables

/-- `UT_hash_bucket`. -/
structure UtHashBucket where
  hhHead : Nat
  count : UInt32
  expandMult : UInt32
  deriving DecidableEq

/-- `UT_hash_table`. -/
structure UtHashTable where
  buckets : Nat → UtHashBucket
  numBuckets : UInt32
  log2NumBuckets : UInt32
  numItems : UInt32
  tail : Nat
  idealChainMaxlen : UInt32
  nonidealItems : UInt32
  ineffExpands : UInt32
  noexpand : UInt32

/--
The items of all tables: `prev` and `next` of their handles, `hh_prev` and `hh_next`,
the `keylen` bytes at `key`, `hashv`, and what the user stores beside the handle.
-/
structure HashHeap (ν : Type) where
  app : Links
  bkt : Links
  key : Nat → List UInt8
  hashv : Nat → UInt32
  data : Nat → ν

/-- The head of a table, which has the table in its handle. -/
structure HashHead where
  head : Nat
  tbl : UtHashTable

/-- `HASH_BKT_CAPACITY_THRESH`. -/
def hashBktCapacityThresh : UInt32 := 10

/-- `HASH_INITIAL_NUM_BUCKETS`. -/
def hashInitialNumBuckets : UInt32 := 32

/-- `HASH_INITIAL_NUM_BUCKETS_LOG2`. -/
def hashInitialNumBucketsLog2 : UInt32 := 5

/-- `sizeof(UT_hash_table)`. -/
def sizeofHashTable : Nat := 64

/-- `sizeof(UT_hash_bucket)`. -/
def sizeofHashBucket : Nat := 16

/-- Buckets, as `memset` leaves them. -/
def emptyBuckets : Nat → UtHashBucket :=
  fun _ => ⟨0, 0, 0⟩

/-- More steps than a loop over linked items takes: each item has an address. -/
def addressBound : Nat := 2 ^ 64

variable {ν : Type}

/-- `HASH_FIND_IN_BKT`: it compares `keylen` and then the bytes. -/
def hashFindInBkt (heap : HashHeap ν) (key : List UInt8) : Nat → Nat → Rt Nat
  | 0, _ => .error (.diverged "HASH_FIND_IN_BKT")
  | fuel + 1, out =>
      if out = 0 then .ok 0
      else if heap.key out = key then .ok out
      else hashFindInBkt heap key fuel (heap.bkt.next out)

/-- `HASH_FIND`: the item with the key, or 0. -/
def hashFind (heap : HashHeap ν) (table : HashHead) (key : List UInt8) : Rt Nat :=
  if table.head = 0 then .ok 0
  else
    let bkt := hashToBkt (hashJen key) table.tbl.numBuckets
    hashFindInBkt heap key addressBound (table.tbl.buckets bkt).hhHead

/-- `HASH_MAKE_TABLE`; a table that cannot be allocated is fatal. -/
def hashMakeTable (malloc : Nat → Bool) (head : Nat) : Rt UtHashTable :=
  if malloc sizeofHashTable && malloc (hashInitialNumBuckets.toNat * sizeofHashBucket) then
    .ok {
      buckets := emptyBuckets
      numBuckets := hashInitialNumBuckets
      log2NumBuckets := hashInitialNumBucketsLog2
      numItems := 0
      tail := head
      idealChainMaxlen := 0
      nonidealItems := 0
      ineffExpands := 0
      noexpand := 0 }
  else .error (.quit "out of memory")

/-- What `HASH_EXPAND_BUCKETS` changes while it moves the items. -/
structure Expansion where
  links : Links
  newBuckets : Nat → UtHashBucket
  nonidealItems : UInt32

/-- `HASH_EXPAND_BUCKETS`: one item moves to its new bucket. -/
def hashExpandItem (hashv : Nat → UInt32) (newNum ideal : UInt32) (state : Expansion)
    (thh : Nat) : Rt Expansion :=
  let bkt := hashToBkt (hashv thh) newNum
  let newbkt := state.newBuckets bkt
  let count := newbkt.count + 1
  let moved (expandMult nonidealItems : UInt32) : Expansion :=
    { links := state.links.pushFront newbkt.hhHead thh
      newBuckets := Function.update state.newBuckets bkt ⟨thh, count, expandMult⟩
      nonidealItems := nonidealItems }
  if ideal < count then
    -- a division by zero traps
    if ideal = 0 then .error (.pageFault "HASH_EXPAND_BUCKETS")
    else .ok (moved (count / ideal) (state.nonidealItems + 1))
  else .ok (moved newbkt.expandMult state.nonidealItems)

/-- `HASH_EXPAND_BUCKETS`: the items of one bucket. -/
def hashExpandChain (hashv : Nat → UInt32) (newNum ideal : UInt32) :
    Nat → Nat → Expansion → Rt Expansion
  | 0, _, _ => .error (.diverged "HASH_EXPAND_BUCKETS")
  | fuel + 1, thh, state =>
      if thh = 0 then .ok state
      else do
        let hhNxt := state.links.next thh
        let state ← hashExpandItem hashv newNum ideal state thh
        hashExpandChain hashv newNum ideal fuel hhNxt state

/-- `HASH_EXPAND_BUCKETS`. -/
def hashExpandBuckets (malloc : Nat → Bool) (heap : HashHeap ν) (tbl : UtHashTable) :
    Rt (HashHeap ν × UtHashTable) :=
  if malloc ((2 * tbl.numBuckets).toNat * sizeofHashBucket) then do
    let ideal := (tbl.numItems >>> (tbl.log2NumBuckets + 1)) +
      if tbl.numItems &&& (tbl.numBuckets * 2 - 1) = 0 then 0 else 1
    let state ← (List.range tbl.numBuckets.toNat).foldlM
      (fun state i => hashExpandChain heap.hashv (tbl.numBuckets * 2) ideal addressBound
        (tbl.buckets i).hhHead state)
      ⟨heap.bkt, emptyBuckets, 0⟩
    let ineffExpands :=
      if tbl.numItems >>> 1 < state.nonidealItems then tbl.ineffExpands + 1 else 0
    return ({ heap with bkt := state.links },
      { tbl with
        buckets := state.newBuckets
        numBuckets := tbl.numBuckets * 2
        log2NumBuckets := tbl.log2NumBuckets + 1
        idealChainMaxlen := ideal
        nonidealItems := state.nonidealItems
        ineffExpands := ineffExpands
        noexpand := if 1 < ineffExpands then 1 else tbl.noexpand })
  else .error (.quit "out of memory")

/-- `HASH_ADD_TO_BKT`. -/
def hashAddToBkt (malloc : Nat → Bool) (heap : HashHeap ν) (tbl : UtHashTable)
    (bkt addhh : Nat) : Rt (HashHeap ν × UtHashTable) :=
  let head := tbl.buckets bkt
  let count := head.count + 1
  let heap := { heap with bkt := heap.bkt.pushFront head.hhHead addhh }
  let tbl := { tbl with
    buckets := Function.update tbl.buckets bkt ⟨addhh, count, head.expandMult⟩ }
  if (head.expandMult + 1) * hashBktCapacityThresh ≤ count ∧ tbl.noexpand ≠ 1 then
    hashExpandBuckets malloc heap tbl
  else .ok (heap, tbl)

/-- `HASH_ADD_KEYPTR`: an item becomes the first or the last one. -/
def hashAppend (malloc : Nat → Bool) (heap : HashHeap ν) (table : HashHead) (add : Nat) :
    Rt (HashHeap ν × HashHead) :=
  if table.head = 0 then do
    let tbl ← hashMakeTable malloc add
    let app : Links :=
      { next := Function.update heap.app.next add 0
        prev := Function.update heap.app.prev add 0 }
    return ({ heap with app := app }, { head := add, tbl := tbl })
  else
    .ok ({ heap with app := heap.app.pushBack table.tbl.tail add },
      { table with tbl := { table.tbl with tail := add } })

/-- `HASH_ADD_KEYPTR`: the item is counted, and goes to its bucket. -/
def hashAddHashed (malloc : Nat → Bool) (heap : HashHeap ν) (table : HashHead)
    (hashv : UInt32) (add : Nat) : Rt (HashHeap ν × HashHead) := do
  let tbl := { table.tbl with numItems := table.tbl.numItems + 1 }
  let heap := { heap with hashv := Function.update heap.hashv add hashv }
  let added ← hashAddToBkt malloc heap tbl (hashToBkt hashv tbl.numBuckets) add
  return (added.1, { head := table.head, tbl := added.2 })

/-- `HASH_ADD_KEYPTR`. -/
def hashAddKeyptr (malloc : Nat → Bool) (heap : HashHeap ν) (table : HashHead)
    (key : List UInt8) (add : Nat) : Rt (HashHeap ν × HashHead) := do
  let linked ← hashAppend malloc { heap with key := Function.update heap.key add key }
    table add
  hashAddHashed malloc linked.1 linked.2 (hashJen key) add

/-- `HASH_DEL_IN_BKT`. -/
def hashDelInBkt (heap : HashHeap ν) (head : UtHashBucket) (hhDel : Nat) :
    HashHeap ν × UtHashBucket :=
  ({ heap with bkt := heap.bkt.unlink hhDel },
    { head with
      count := head.count - 1
      hhHead := if head.hhHead = hhDel then heap.bkt.next hhDel else head.hhHead })

/-- `HASH_DELETE`; the table goes with its last item. -/
def hashDelete (heap : HashHeap ν) (table : HashHead) (delptr : Nat) :
    HashHeap ν × HashHead :=
  if heap.app.prev delptr = 0 ∧ heap.app.next delptr = 0 then
    (heap, { table with head := 0 })
  else
    let tail :=
      if delptr = table.tbl.tail then heap.app.prev delptr else table.tbl.tail
    let head :=
      if heap.app.prev delptr ≠ 0 then table.head else heap.app.next delptr
    let heap := { heap with app := heap.app.unlink delptr }
    let bkt := hashToBkt (heap.hashv delptr) table.tbl.numBuckets
    let deleted := hashDelInBkt heap (table.tbl.buckets bkt) delptr
    (deleted.1, {
      head := head
      tbl := { table.tbl with
        tail := tail
        buckets := Function.update table.tbl.buckets bkt deleted.2
        numItems := table.tbl.numItems - 1 } })

/-- `HASH_ITER`: the body may delete the item that it is given. -/
def hashIter {σ : Type} (links : σ → Links) (body : σ → Nat → Rt σ) :
    Nat → σ → Nat → Nat → Rt σ
  | 0, _, _, _ => .error (.diverged "HASH_ITER")
  | fuel + 1, state, el, tmp =>
      if el = 0 then .ok state
      else do
        let state ← body state el
        hashIter links body fuel state tmp (if tmp = 0 then 0 else (links state).next tmp)

/-- `HASH_CNT`. -/
def hashCnt (table : HashHead) : UInt32 :=
  if table.head = 0 then 0 else table.tbl.numItems

/-- `HASH_FSCK`: follow links, compare the links back, and count. -/
def fsckChain (links : Links) (message : String) : Nat → Nat → Nat → UInt32 → Rt UInt32
  | 0, _, _, _ => .error (.diverged "HASH_FSCK")
  | fuel + 1, prev, thh, count =>
      if thh = 0 then .ok count
      else if prev ≠ links.prev thh then .error (.quit message)
      else fsckChain links message fuel thh (links.next thh) (count + 1)

/-- `HASH_FSCK`: one bucket is added to the count of all. -/
def fsckBucket (heap : HashHeap ν) (tbl : UtHashTable) (count : UInt32) (i : Nat) :
    Rt UInt32 := do
  let bktCount ← fsckChain heap.bkt "invalid hh_prev" addressBound 0
    (tbl.buckets i).hhHead 0
  if (tbl.buckets i).count ≠ bktCount then .error (.quit "invalid bucket count")
  else .ok (count + bktCount)

/-- `HASH_FSCK`, which runs after each change of a table when `HASH_DEBUG` is defined. -/
def hashFsck (heap : HashHeap ν) (table : HashHead) : Rt Unit :=
  if table.head = 0 then .ok ()
  else do
    let inBuckets ←
      (List.range table.tbl.numBuckets.toNat).foldlM (fsckBucket heap table.tbl) 0
    if inBuckets ≠ table.tbl.numItems then .error (.quit "invalid hh item count")
    else do
      let inOrder ← fsckChain heap.app "invalid prev" addressBound 0 table.head 0
      if inOrder ≠ table.tbl.numItems then .error (.quit "invalid app item count")
      else .ok ()

end Tables

end Mcfi
