import Mcfi.UthashBuckets

namespace Mcfi

/-!
# What a hash table holds

A table holds its items when the links in application order lead through them to the
tail and the buckets hold them: what `HASH_FSCK` checks.  Every operation of the table
keeps this, changes links of its own items only, and fails only for want of memory.
-/

/-- The size of the region that `malloc` takes small blocks from: `BRKSIZE`. -/
def brkSize : Nat := 0x40000000

/--
What is relied on of `malloc`: small blocks lie in one region, and no machine has a
block of `2^35` bytes.
-/
structure Allocator where
  grants : Nat → Bool
  brk0 : Nat
  aboveNull : 0 < brk0
  belowEnd : brk0 + brkSize ≤ addressBound
  bounded : ∀ size, grants size = true → size < 2 ^ 35

section Holds

variable {ν : Type}

/-- The links and the contents at an address are the same. -/
structure HashHeap.SameAt (later heap : HashHeap ν) (item : Nat) : Prop where
  app : later.app.SameAt heap.app item
  bkt : later.bkt.SameAt heap.bkt item
  key : later.key item = heap.key item
  hashv : later.hashv item = heap.hashv item
  data : later.data item = heap.data item

/-- What is the same twice is the same. -/
theorem HashHeap.SameAt.trans {heap middle later : HashHeap ν} {item : Nat}
    (second : later.SameAt middle item) (first : middle.SameAt heap item) :
    later.SameAt heap item where
  app := ⟨second.app.1.trans first.app.1, second.app.2.trans first.app.2⟩
  bkt := ⟨second.bkt.1.trans first.bkt.1, second.bkt.2.trans first.bkt.2⟩
  key := second.key.trans first.key
  hashv := second.hashv.trans first.hashv
  data := second.data.trans first.data

/-- What a table with items has. -/
structure UtHashTable.Holds (heap : HashHeap ν) (tbl : UtHashTable) (items : List Nat) :
    Prop where
  size : tbl.numBuckets.toNat = 2 ^ tbl.log2NumBuckets.toNat
  small : tbl.numBuckets.toNat < 2 ^ 31
  hold : BucketsHold heap.bkt heap.hashv tbl.numBuckets tbl.buckets items
  hashed : ∀ item ∈ items, heap.hashv item = hashJen (heap.key item)
  counted : tbl.numItems = UInt32.ofNat items.length

/-- The items of a table, in the order in which they were added. -/
structure HashHead.Holds (alloc : Allocator) (heap : HashHeap ν) (table : HashHead)
    (items : List Nat) : Prop where
  distinct : items.Nodup
  allocated : ∀ item ∈ items, alloc.brk0 ≤ item ∧ item < alloc.brk0 + brkSize
  chain : ∃ last, heap.app.Chain table.head items last ∧
    (items ≠ [] → table.tbl.tail = last)
  keys : (items.map heap.key).Nodup
  tbl : items ≠ [] → table.tbl.Holds heap items

variable {alloc : Allocator} {heap later : HashHeap ν} {table : HashHead}
  {tbl : UtHashTable} {items : List Nat} {item : Nat} {key : List UInt8}

namespace UtHashTable.Holds

/-- A table has a bucket. -/
theorem positive (holds : tbl.Holds heap items) : 0 < tbl.numBuckets.toNat := by
  rw [holds.size]
  exact Nat.two_pow_pos _

/-- What a table has depends on its items only. -/
theorem congr (holds : tbl.Holds heap items)
    (same : ∀ item ∈ items, later.SameAt heap item) : tbl.Holds later items where
  size := holds.size
  small := holds.small
  hold := holds.hold.congr (fun item listed => (same item listed).bkt)
    (fun item listed => (same item listed).hashv)
  hashed item listed := by
    rw [(same item listed).hashv, (same item listed).key]
    exact holds.hashed item listed
  counted := holds.counted

end UtHashTable.Holds

namespace HashHead.Holds

/-- What a table holds depends on its items only. -/
theorem congr (holds : table.Holds alloc heap items)
    (same : ∀ item ∈ items, later.SameAt heap item) : table.Holds alloc later items where
  distinct := holds.distinct
  allocated := holds.allocated
  chain := by
    obtain ⟨last, chain, isTail⟩ := holds.chain
    exact ⟨last, chain.sameAt fun item listed => (same item listed).app, isTail⟩
  keys := by
    have sameKeys : items.map later.key = items.map heap.key :=
      List.map_congr_left fun item listed => (same item listed).key
    rw [sameKeys]
    exact holds.keys
  tbl some := (holds.tbl some).congr same

/-- The empty table holds nothing. -/
theorem empty (isNull : table.head = 0) : table.Holds alloc heap [] where
  distinct := List.nodup_nil
  allocated item listed := by cases listed
  chain := ⟨0, ⟨isNull, rfl⟩, fun some => (some rfl).elim⟩
  keys := List.nodup_nil
  tbl some := (some rfl).elim

/-- A table holds nothing exactly when its head is null. -/
theorem nil_iff (holds : table.Holds alloc heap items) :
    items = [] ↔ table.head = 0 := by
  obtain ⟨last, chain, -⟩ := holds.chain
  exact chain.nil_iff

/-- No item is null. -/
theorem ne_zero (holds : table.Holds alloc heap items) (listed : item ∈ items) :
    item ≠ 0 := by
  have low := (holds.allocated item listed).1
  have aboveNull := alloc.aboveNull
  omega

/-- The items have addresses. -/
theorem below (holds : table.Holds alloc heap items) (listed : item ∈ items) :
    item < addressBound := by
  have high := (holds.allocated item listed).2
  have belowEnd := alloc.belowEnd
  omega

/-- The region has room for so many items only. -/
theorem length_le (holds : table.Holds alloc heap items) : items.length ≤ brkSize := by
  have inRegion : items ⊆ List.range' alloc.brk0 brkSize := by
    intro item listed
    rw [List.mem_range'_1]
    exact holds.allocated item listed
  have fits := (List.subperm_of_subset holds.distinct inRegion).length_le
  rw [List.length_range'] at fits
  exact fits

/-- Items with one key are one item. -/
theorem key_unique (holds : table.Holds alloc heap items) {other : Nat}
    (listed : item ∈ items) (otherListed : other ∈ items)
    (sameKey : heap.key other = heap.key item) : other = item :=
  List.inj_on_of_nodup_map holds.keys otherListed listed sameKey

/-- `HASH_FIND` finds the item with the key. -/
theorem find_found (holds : table.Holds alloc heap items) (listed : item ∈ items)
    (isKey : heap.key item = key) : hashFind heap table key = .ok item := by
  have some : items ≠ [] := by
    rintro rfl
    cases listed
  have tblHolds := holds.tbl some
  obtain ⟨chain, last, segment, distinct, -, inChain⟩ := tblHolds.hold
    (hashToBkt (hashJen key) table.tbl.numBuckets) (hashToBkt_lt _ tblHolds.positive)
  have isBucket : hashToBkt (heap.hashv item) table.tbl.numBuckets =
      hashToBkt (hashJen key) table.tbl.numBuckets := by
    rw [tblHolds.hashed item listed, isKey]
  have itemListed : item ∈ chain := (inChain item).mpr ⟨listed, isBucket⟩
  rw [hashFind, if_neg fun isNull => some (holds.nil_iff.mpr isNull)]
  refine hashFindInBkt_found segment ?_ itemListed isKey ?_
  · rcases length_lt_of_addresses distinct (fun other => segment.ne_zero)
        (fun other otherListed => holds.below ((inChain other).mp otherListed).1) with
      fits | empty
    · exact fits
    · rw [empty] at itemListed
      cases itemListed
  · intro other otherListed otherKey
    exact holds.key_unique listed ((inChain other).mp otherListed).1
      (otherKey.trans isKey.symm)

/-- `HASH_FIND` finds nothing when no item has the key. -/
theorem find_absent (holds : table.Holds alloc heap items)
    (absent : ∀ item ∈ items, heap.key item ≠ key) : hashFind heap table key = .ok 0 := by
  rw [hashFind]
  split
  next => rfl
  next notNull =>
    have tblHolds := holds.tbl fun empty => notNull (holds.nil_iff.mp empty)
    obtain ⟨chain, last, segment, distinct, -, inChain⟩ := tblHolds.hold
      (hashToBkt (hashJen key) table.tbl.numBuckets) (hashToBkt_lt _ tblHolds.positive)
    refine hashFindInBkt_absent segment ?_ fun other otherListed =>
      absent other ((inChain other).mp otherListed).1
    rcases length_lt_of_addresses distinct (fun other => segment.ne_zero)
        (fun other otherListed => holds.below ((inChain other).mp otherListed).1) with
      fits | empty
    · exact fits
    · rw [empty]
      exact Nat.two_pow_pos 64

end HashHead.Holds

end Holds

section Expand

variable {ν : Type} {alloc : Allocator} {heap : HashHeap ν} {tbl : UtHashTable}
  {items : List Nat}

/-- Twice as many buckets are a power of two as well. -/
private theorem doubled {numBuckets log2NumBuckets : UInt32}
    (size : numBuckets.toNat = 2 ^ log2NumBuckets.toNat)
    (small : numBuckets.toNat < 2 ^ 31) :
    log2NumBuckets.toNat < 31 ∧ (log2NumBuckets + 1).toNat = log2NumBuckets.toNat + 1 ∧
      (numBuckets * 2).toNat = 2 ^ (log2NumBuckets.toNat + 1) := by
  have few : log2NumBuckets.toNat < 31 := by
    rw [size] at small
    exact (Nat.pow_lt_pow_iff_right (by decide)).mp small
  refine ⟨few, ?_, ?_⟩
  · rw [UInt32.toNat_add]
    exact Nat.mod_eq_of_lt (by simp only [UInt32.toNat_one]; omega)
  · rw [UInt32.toNat_mul, Nat.mod_eq_of_lt (by simp only [UInt32.toNat_ofNat]; omega),
      size, Nat.pow_succ]
    rfl

/-- The ideal length of a chain is never zero when there are items. -/
theorem idealChainMaxlen_ne_zero {numItems numBuckets log2NumBuckets : UInt32}
    (size : numBuckets.toNat = 2 ^ log2NumBuckets.toNat) (small : numBuckets.toNat < 2 ^ 31)
    (some : numItems ≠ 0) :
    (numItems >>> (log2NumBuckets + 1)) +
      (if numItems &&& (numBuckets * 2 - 1) = 0 then 0 else 1) ≠ 0 := by
  obtain ⟨few, log, twice⟩ := doubled size small
  have positive : 0 < numItems.toNat := by
    refine Nat.pos_of_ne_zero fun isZero => some ?_
    exact UInt32.toNat_inj.mp isZero
  have shifted : (numItems >>> (log2NumBuckets + 1)).toNat =
      numItems.toNat / 2 ^ (log2NumBuckets.toNat + 1) := by
    rw [UInt32.toNat_shiftRight, log, Nat.mod_eq_of_lt (by omega),
      Nat.shiftRight_eq_div_pow]
  have atLeastTwo : 2 ^ 1 ≤ 2 ^ (log2NumBuckets.toNat + 1) :=
    Nat.pow_le_pow_right (by decide) (by omega)
  have masked : (numItems &&& (numBuckets * 2 - 1)).toNat =
      numItems.toNat % 2 ^ (log2NumBuckets.toNat + 1) := by
    have mask : (numBuckets * 2 - 1).toNat = 2 ^ (log2NumBuckets.toNat + 1) - 1 := by
      rw [UInt32.toNat_sub_of_le _ _ (UInt32.le_iff_toNat_le.mpr (by
        rw [twice, UInt32.toNat_one]
        omega)), twice]
      rfl
    rw [UInt32.toNat_and, mask, Nat.and_two_pow_sub_one_eq_mod]
  intro isZero
  have sum := congrArg UInt32.toNat isZero
  split at sum
  next noRest =>
    have divides := congrArg UInt32.toNat noRest
    rw [masked] at divides
    rw [UInt32.add_zero, shifted] at sum
    have whole := Nat.div_add_mod numItems.toNat (2 ^ (log2NumBuckets.toNat + 1))
    simp only [UInt32.toNat_zero] at sum divides
    rw [sum, divides] at whole
    omega
  next rest =>
    have half : numItems.toNat / 2 ^ (log2NumBuckets.toNat + 1) ≤ numItems.toNat / 2 :=
      Nat.div_le_div_left atLeastTwo (by decide)
    have bound := numItems.toNat_lt
    rw [UInt32.toNat_add, shifted] at sum
    simp only [UInt32.toNat_zero, UInt32.toNat_one] at sum
    rw [Nat.mod_eq_of_lt (by omega)] at sum
    omega

/-- An expansion moves all items to twice as many buckets. -/
theorem hashExpandBuckets_holds (alloc : Allocator) (holds : tbl.Holds heap items)
    (below : ∀ item ∈ items, item < addressBound) (some : items ≠ [])
    (few : items.length < 2 ^ 32) :
    hashExpandBuckets alloc.grants heap tbl = .error (.quit "out of memory") ∨
      ∃ links expanded, hashExpandBuckets alloc.grants heap tbl =
          .ok ({ heap with bkt := links }, expanded) ∧
        expanded.Holds { heap with bkt := links } items ∧ expanded.tail = tbl.tail ∧
        ∀ item, item ∉ items → links.SameAt heap.bkt item := by
  obtain ⟨fewLog, log, twice⟩ := doubled holds.size holds.small
  have someItems : tbl.numItems ≠ 0 := by
    intro isZero
    rw [holds.counted] at isZero
    have length := congrArg UInt32.toNat isZero
    rw [UInt32.toNat_ofNat_of_lt' few] at length
    exact some (List.length_eq_zero_iff.mp length)
  have positive : 0 < (tbl.numBuckets * 2).toNat := by
    rw [twice]
    exact Nat.two_pow_pos _
  by_cases granted : alloc.grants ((2 * tbl.numBuckets).toNat * sizeofHashBucket) = true
  · right
    have bounded := alloc.bounded _ granted
    rw [UInt32.mul_comm] at bounded
    obtain ⟨state, all, moves, moved, listed⟩ := ExpansionHolds.moveBuckets holds.hold below
      positive (idealChainMaxlen_ne_zero holds.size holds.small someItems)
      (fun i inRange => List.mem_range.mp inRange) List.nodup_range
      (⟨BucketsHold.empty, fun _ _ => ⟨rfl, rfl⟩⟩ :
        ExpansionHolds heap.bkt heap.hashv (tbl.numBuckets * 2) []
          ⟨heap.bkt, emptyBuckets, 0⟩)
      (fun item listed => by cases listed)
    have sameItems : ∀ item, item ∈ all ↔ item ∈ items := by
      intro item
      rw [listed item]
      constructor
      · rintro (isNil | ⟨isItem, -⟩)
        · cases isNil
        · exact isItem
      · intro isItem
        exact Or.inr ⟨isItem, List.mem_range.mpr (hashToBkt_lt _ holds.positive)⟩
    simp only [hashExpandBuckets, granted, if_true]
    rw [moves]
    refine ⟨state.links, _, rfl, ⟨?_, ?_, ?_, holds.hashed, holds.counted⟩, rfl, ?_⟩
    · simp only
      rw [twice, log]
    · simp only [sizeofHashBucket] at bounded ⊢
      omega
    · exact moved.hold.of_mem_iff fun item => (sameItems item).symm
    · intro item notListed
      exact moved.others item fun inAll => notListed ((sameItems item).mp inAll)
  · left
    rw [hashExpandBuckets, if_neg granted]

end Expand

section Add

variable {ν : Type} {alloc : Allocator} {heap : HashHeap ν} {table : HashHead}
  {tbl : UtHashTable} {items : List Nat} {add : Nat}

/-- An item that is put into a bucket, which may expand the table. -/
theorem hashAddToBkt_holds (alloc : Allocator) (heap : HashHeap ν) (tbl : UtHashTable)
    {bkt : Nat}
    (isBkt : hashToBkt (heap.hashv add) tbl.numBuckets = bkt)
    (size : tbl.numBuckets.toNat = 2 ^ tbl.log2NumBuckets.toNat)
    (small : tbl.numBuckets.toNat < 2 ^ 31)
    (hold : BucketsHold heap.bkt heap.hashv tbl.numBuckets tbl.buckets items)
    (hashed : ∀ item ∈ items ++ [add], heap.hashv item = hashJen (heap.key item))
    (counted : tbl.numItems = UInt32.ofNat (items ++ [add]).length)
    (fresh : add ∉ items) (notNull : ∀ item ∈ items ++ [add], item ≠ 0)
    (below : ∀ item ∈ items ++ [add], item < addressBound)
    (few : (items ++ [add]).length < 2 ^ 32) :
    hashAddToBkt alloc.grants heap tbl bkt add = .error (.quit "out of memory") ∨
      ∃ links added, hashAddToBkt alloc.grants heap tbl bkt add =
          .ok ({ heap with bkt := links }, added) ∧
        added.Holds { heap with bkt := links } (items ++ [add]) ∧
        added.tail = tbl.tail ∧
        ∀ item, item ∉ items ++ [add] → links.SameAt heap.bkt item := by
  have positive : 0 < tbl.numBuckets.toNat := by
    rw [size]
    exact Nat.two_pow_pos _
  have pushed := hold.push positive (notNull add (by simp)) fresh
    (tbl.buckets (hashToBkt (heap.hashv add) tbl.numBuckets)).expandMult
  have others : ∀ item, item ∉ items ++ [add] →
      (heap.bkt.pushFront
        (tbl.buckets (hashToBkt (heap.hashv add) tbl.numBuckets)).hhHead add).SameAt
          heap.bkt item :=
    fun item notListed => hold.push_sameAt positive notListed
  rw [isBkt] at pushed others
  have pushedHolds : UtHashTable.Holds
      { heap with bkt := heap.bkt.pushFront (tbl.buckets bkt).hhHead add }
      { tbl with
        buckets := Function.update tbl.buckets bkt
          ⟨add, (tbl.buckets bkt).count + 1, (tbl.buckets bkt).expandMult⟩ }
      (items ++ [add]) :=
    ⟨size, small, pushed, hashed, counted⟩
  unfold hashAddToBkt
  dsimp only
  split
  next =>
    rcases hashExpandBuckets_holds alloc pushedHolds below (by simp) few with
      failed | ⟨links, expanded, returned, holds, sameTail, same⟩
    · exact Or.inl failed
    · refine Or.inr ⟨links, expanded, returned, holds, sameTail, fun item notListed => ?_⟩
      obtain ⟨sameNext, samePrev⟩ := same item notListed
      have before := others item notListed
      exact ⟨sameNext.trans before.1, samePrev.trans before.2⟩
  next => exact Or.inr ⟨_, _, rfl, pushedHolds, rfl, others⟩

/-- What an operation leaves at all other addresses. -/
structure HashHeap.Others (later heap : HashHeap ν) (items : List Nat) : Prop where
  app : ∀ item, item ∉ items → later.app.SameAt heap.app item
  bkt : ∀ item, item ∉ items → later.bkt.SameAt heap.bkt item

private theorem initial_small : hashInitialNumBuckets.toNat < 2 ^ 31 := by decide

/-- An item becomes the last one of its table. -/
private theorem hashAppend_holds (holds : table.Holds alloc heap items)
    (notNull : add ≠ 0) (fresh : add ∉ items) (keys : Nat → List UInt8) :
    hashAppend alloc.grants { heap with key := keys } table add =
        .error (.quit "out of memory") ∨
      ∃ app linked, hashAppend alloc.grants { heap with key := keys } table add =
          .ok ({ heap with key := keys, app := app }, linked) ∧
        app.Chain linked.head (items ++ [add]) add ∧ linked.tbl.tail = add ∧
        linked.tbl.numBuckets.toNat = 2 ^ linked.tbl.log2NumBuckets.toNat ∧
        linked.tbl.numBuckets.toNat < 2 ^ 31 ∧
        BucketsHold heap.bkt heap.hashv linked.tbl.numBuckets linked.tbl.buckets items ∧
        linked.tbl.numItems = UInt32.ofNat items.length ∧
        ∀ item, item ∉ items ++ [add] → app.SameAt heap.app item := by
  by_cases isNull : table.head = 0
  · have empty := holds.nil_iff.mpr isNull
    subst empty
    unfold hashAppend hashMakeTable
    rw [if_pos isNull]
    split
    next =>
      refine Or.inr ⟨_, _, rfl, ⟨rfl, notNull, ?_, ?_, rfl⟩, rfl, rfl,
        initial_small, BucketsHold.empty, rfl, fun item notListed => ?_⟩
      · exact Function.update_self ..
      · exact Function.update_self ..
      · have different : item ≠ add := fun same => notListed (by simp [same])
        exact ⟨Function.update_of_ne different _ _, Function.update_of_ne different _ _⟩
    next => exact Or.inl rfl
  · have some : items ≠ [] := fun empty => isNull (holds.nil_iff.mp empty)
    obtain ⟨last, chain, isTail⟩ := holds.chain
    have tblHolds := holds.tbl some
    rw [← isTail some] at chain
    refine Or.inr ⟨heap.app.pushBack table.tbl.tail add,
      { table with tbl := { table.tbl with tail := add } }, ?_,
      chain.pushBack some notNull fresh holds.distinct, rfl, tblHolds.size,
      tblHolds.small, tblHolds.hold, tblHolds.counted, fun item notListed => ?_⟩
    · rw [hashAppend, if_neg isNull]
    · simp only [List.mem_append, List.mem_singleton, not_or] at notListed
      refine Links.pushBack_sameAt notListed.2 ?_
      rintro rfl
      exact notListed.1 (chain.last_mem some)

/-- An item with a new key that is added becomes the last one. -/
theorem HashHead.Holds.added (holds : table.Holds alloc heap items) {key : List UInt8}
    (region : alloc.brk0 ≤ add ∧ add < alloc.brk0 + brkSize) (fresh : add ∉ items)
    (newKey : ∀ item ∈ items, heap.key item ≠ key) :
    hashAddKeyptr alloc.grants heap table key add = .error (.quit "out of memory") ∨
      ∃ later added, hashAddKeyptr alloc.grants heap table key add = .ok (later, added) ∧
        added.Holds alloc later (items ++ [add]) ∧
        later.key = Function.update heap.key add key ∧
        later.hashv = Function.update heap.hashv add (hashJen key) ∧
        later.data = heap.data ∧ later.Others heap (items ++ [add]) := by
  have allocated : ∀ item ∈ items ++ [add],
      alloc.brk0 ≤ item ∧ item < alloc.brk0 + brkSize := by
    intro item listed
    rcases List.mem_append.mp listed with before | isAdd
    · exact holds.allocated item before
    · rw [List.mem_singleton.mp isAdd]
      exact region
  have notNull : ∀ item ∈ items ++ [add], item ≠ 0 := by
    intro item listed
    have low := (allocated item listed).1
    have aboveNull := alloc.aboveNull
    omega
  have below : ∀ item ∈ items ++ [add], item < addressBound := by
    intro item listed
    have high := (allocated item listed).2
    have belowEnd := alloc.belowEnd
    omega
  have others : ∀ item ∈ items, item ≠ add := by
    rintro item listed rfl
    exact fresh listed
  have few : (items ++ [add]).length < 2 ^ 32 := by
    have fits := holds.length_le
    simp only [brkSize] at fits
    simp only [List.length_append, List.length_singleton]
    omega
  unfold hashAddKeyptr
  rcases hashAppend_holds holds (notNull add (by simp)) fresh
      (Function.update heap.key add key) with
    failed | ⟨app, linked, appends, chain, isTail, size, small, hold, counted, sameApp⟩
  · rw [failed]
    exact Or.inl rfl
  rw [appends]
  have hashed : ∀ item ∈ items ++ [add],
      Function.update heap.hashv add (hashJen key) item =
        hashJen (Function.update heap.key add key item) := by
    intro item listed
    rcases List.mem_append.mp listed with before | isAdd
    · rw [Function.update_of_ne (others item before), Function.update_of_ne (others item before)]
      have some : items ≠ [] := by
        rintro rfl
        cases before
      exact (holds.tbl some).hashed item before
    · rw [List.mem_singleton.mp isAdd, Function.update_self, Function.update_self]
  have isBkt : hashToBkt (Function.update heap.hashv add (hashJen key) add)
      linked.tbl.numBuckets = hashToBkt (hashJen key) linked.tbl.numBuckets := by
    rw [Function.update_self]
  have bucket := hashAddToBkt_holds alloc
    { heap with
      key := Function.update heap.key add key
      app := app
      hashv := Function.update heap.hashv add (hashJen key) }
    { linked.tbl with numItems := linked.tbl.numItems + 1 } isBkt size small
    (hold.congr (fun _ _ => ⟨rfl, rfl⟩)
      (fun item listed => Function.update_of_ne (others item listed) _ _))
    hashed (by
      rw [counted, List.length_append, List.length_singleton, UInt32.ofNat_add]
      rfl) fresh notNull below few
  simp only [hashAddHashed, bind, Except.bind, pure, Except.pure]
  rcases bucket with failed | ⟨links, added, returned, tblHolds, sameTail, sameBkt⟩
  · rw [failed]
    exact Or.inl rfl
  · rw [returned]
    refine Or.inr ⟨_, _, rfl, ⟨?_, allocated, ?_, ?_, fun _ => tblHolds⟩, rfl, rfl, rfl,
      sameApp, sameBkt⟩
    · refine List.nodup_append.mpr ⟨holds.distinct, List.nodup_singleton _, ?_⟩
      intro item listed other isAdd
      rw [List.mem_singleton.mp isAdd]
      exact others item listed
    · exact ⟨add, chain, fun _ => sameTail.trans isTail⟩
    · rw [List.map_append, List.nodup_append]
      have sameKeys : items.map (Function.update heap.key add key) = items.map heap.key :=
        List.map_congr_left fun item listed =>
          Function.update_of_ne (others item listed) _ _
      rw [sameKeys]
      refine ⟨holds.keys, List.nodup_singleton _, ?_⟩
      intro first inKeys second isKey
      obtain ⟨item, listed, rfl⟩ := List.mem_map.mp inKeys
      simp only [List.map_cons, List.map_nil, List.mem_singleton,
        Function.update_self] at isKey
      rw [isKey]
      exact newKey item listed

/-- An item that is deleted is gone, and the others stay in order. -/
theorem HashHead.Holds.deleted (holds : table.Holds alloc heap items)
    (listed : add ∈ items) :
    ∃ app bkt deleted, hashDelete heap table add =
        ({ heap with app := app, bkt := bkt }, deleted) ∧
      deleted.Holds alloc { heap with app := app, bkt := bkt } (items.erase add) ∧
      HashHeap.Others { heap with app := app, bkt := bkt } heap items := by
  obtain ⟨last, chain, isTail⟩ := holds.chain
  have some : items ≠ [] := by
    rintro rfl
    cases listed
  have tblHolds := holds.tbl some
  obtain ⟨front, back, rfl⟩ := List.append_of_mem listed
  obtain ⟨distinctFront, distinctNode, apart⟩ := List.nodup_append.mp holds.distinct
  have notInFront : add ∉ front := fun inFront => apart add inFront add (by simp) rfl
  have erased : (front ++ add :: back).erase add = front ++ back := by
    rw [List.erase_append_right _ notInFront, List.erase_cons_head]
  unfold hashDelete
  split
  next alone =>
    have noFront := chain.prev_eq_zero_iff.mp alone.1
    have noBack := chain.next_eq_zero_iff.mp alone.2
    subst noFront noBack
    refine ⟨heap.app, heap.bkt, { table with head := 0 }, rfl, ?_,
      fun _ _ => ⟨rfl, rfl⟩, fun _ _ => ⟨rfl, rfl⟩⟩
    rw [erased]
    exact HashHead.Holds.empty rfl
  next notAlone =>
    refine ⟨_, _, _, rfl, ⟨?_, ?_, ?_, ?_, ?_⟩, ?_, ?_⟩
    · exact holds.distinct.erase add
    · exact fun item inRest => holds.allocated item (List.mem_of_mem_erase inRest)
    · rw [erased]
      refine ⟨_, chain.unlink holds.distinct, fun _ => ?_⟩
      simp only [isTail some]
      exact if_congr eq_comm rfl rfl
    · exact holds.keys.sublist ((List.erase_sublist ..).map heap.key)
    · intro _
      refine ⟨tblHolds.size, tblHolds.small, ?_, ?_, ?_⟩
      · exact tblHolds.hold.delete tblHolds.positive listed fun other =>
          holds.distinct.mem_erase_iff.trans and_comm
      · exact fun item inRest => tblHolds.hashed item (List.mem_of_mem_erase inRest)
      · simp only
        rw [tblHolds.counted, erased, List.length_append, List.length_append,
          List.length_cons, ← Nat.add_assoc, UInt32.ofNat_add]
        exact UInt32.add_sub_cancel _ _
    · exact fun item notListed => chain.unlink_sameAt notListed
    · exact fun item notListed =>
        tblHolds.hold.delete_sameAt tblHolds.positive listed notListed

end Add

end Mcfi
