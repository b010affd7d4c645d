import Mcfi.KvTables

namespace Mcfi

namespace KvTable

/-!
# The dictionaries in memory refine those in insertion order

Each dictionary represents one in insertion order, and the items of two dictionaries
are apart, so that a call changes its own dictionary only.
-/

variable {ν : Type}

section Bytes

/-- Different keys have different bytes. -/
theorem keyBytes_injective {first second : UInt64}
    (same : keyBytes first = keyBytes second) : first = second := by
  refine UInt64.toNat_inj.mp ?_
  have digits : ∀ i < 8, first.toNat / 256 ^ i % 256 = second.toNat / 256 ^ i % 256 := by
    intro i below
    have bytes := congrArg (fun bytes => bytes[i]?) same
    simp only [keyBytes, List.getElem?_map, List.getElem?_range below, Option.map_some,
      Option.some.injEq] at bytes
    have values := congrArg UInt8.toNat bytes
    rw [UInt8.toNat_ofNat', UInt8.toNat_ofNat'] at values
    exact values
  have firstBound := first.toNat_lt
  have secondBound := second.toNat_lt
  have d0 := digits 0 (by decide)
  have d1 := digits 1 (by decide)
  have d2 := digits 2 (by decide)
  have d3 := digits 3 (by decide)
  have d4 := digits 4 (by decide)
  have d5 := digits 5 (by decide)
  have d6 := digits 6 (by decide)
  have d7 := digits 7 (by decide)
  simp only [Nat.reducePow, Nat.div_one] at d0 d1 d2 d3 d4 d5 d6 d7 firstBound secondBound
  omega

end Bytes

section Represents

/-- What a dictionary reads at an item. -/
def entryAt (heap : HashHeap ν) (item : Nat) : List UInt8 × ν :=
  (heap.key item, heap.data item)

/-- A dictionary holds items that are allocated, with the entries in their order. -/
structure Represents (alloc : Allocator) (memory : KvHeap ν) (dict : HashHead)
    (items : List Nat) (abs : OrdDict UInt64 ν) : Prop where
  holds : dict.Holds alloc memory.heap items
  live : ∀ item ∈ items, memory.live item = true
  entries : items.map (entryAt memory.heap) =
    abs.entries.map fun entry => (keyBytes entry.1, entry.2)

variable {alloc : Allocator} {memory later : KvHeap ν} {dict : HashHead}
  {items : List Nat} {abs : OrdDict UInt64 ν} {key : UInt64} {item : Nat}

/-- What a dictionary represents depends on its items only. -/
theorem Represents.congr (represents : Represents alloc memory dict items abs)
    (same : ∀ item ∈ items, later.heap.SameAt memory.heap item)
    (sameLive : ∀ item ∈ items, later.live item = memory.live item) :
    Represents alloc later dict items abs where
  holds := represents.holds.congr same
  live item listed := by
    rw [sameLive item listed]
    exact represents.live item listed
  entries := by
    rw [← represents.entries]
    refine List.map_congr_left fun item listed => ?_
    rw [entryAt, entryAt, (same item listed).key, (same item listed).data]

/-- The entries of a dictionary are those of its items. -/
theorem Represents.find_iff (represents : Represents alloc memory dict items abs)
    {value : ν} : abs.find key = some value ↔
      ∃ item ∈ items, memory.heap.key item = keyBytes key ∧
        memory.heap.data item = value := by
  have listed : (keyBytes key, value) ∈ items.map (entryAt memory.heap) ↔
      (key, value) ∈ abs.entries := by
    rw [represents.entries, List.mem_map]
    constructor
    · rintro ⟨⟨other, found⟩, inEntries, same⟩
      obtain ⟨sameBytes, sameValue⟩ := Prod.mk.inj same
      cases keyBytes_injective sameBytes
      cases sameValue
      exact inEntries
    · intro inEntries
      exact ⟨(key, value), inEntries, rfl⟩
  rw [OrdDict.find_eq_some, ← listed, List.mem_map]
  constructor
  · rintro ⟨item, isItem, same⟩
    obtain ⟨sameKey, sameValue⟩ := Prod.mk.inj same
    exact ⟨item, isItem, sameKey, sameValue⟩
  · rintro ⟨item, isItem, sameKey, sameValue⟩
    exact ⟨item, isItem, Prod.ext sameKey sameValue⟩

/-- A key of the dictionary is the key of an item. -/
theorem Represents.mem_iff (represents : Represents alloc memory dict items abs) :
    key ∈ abs ↔ ∃ item ∈ items, memory.heap.key item = keyBytes key := by
  constructor
  · intro present
    obtain ⟨value, found⟩ := OrdDict.exists_find_of_mem present
    obtain ⟨item, listed, isKey, -⟩ := represents.find_iff.mp found
    exact ⟨item, listed, isKey⟩
  · rintro ⟨item, listed, isKey⟩
    exact OrdDict.mem_of_find (represents.find_iff.mpr ⟨item, listed, isKey, rfl⟩)

/-- Each item has the bytes of a key. -/
theorem Represents.keyed (represents : Represents alloc memory dict items abs)
    (listed : item ∈ items) : ∃ key, memory.heap.key item = keyBytes key := by
  have inEntries := List.mem_map_of_mem (f := entryAt memory.heap) listed
  rw [represents.entries] at inEntries
  obtain ⟨entry, -, same⟩ := List.mem_map.mp inEntries
  exact ⟨entry.1, (congrArg Prod.fst same).symm⟩

/-- `dict_find` returns the item with the key, or null. -/
theorem Represents.find (represents : Represents alloc memory dict items abs)
    (key : UInt64) :
    (∃ kv ∈ items, dictFind memory.heap dict key = .ok kv ∧
        memory.heap.key kv = keyBytes key ∧ abs.find key = some (memory.heap.data kv)) ∨
      (dictFind memory.heap dict key = .ok 0 ∧ abs.find key = none) := by
  by_cases present : key ∈ abs
  · left
    obtain ⟨kv, listed, isKey⟩ := represents.mem_iff.mp present
    exact ⟨kv, listed, represents.holds.find_found listed isKey, isKey,
      represents.find_iff.mpr ⟨kv, listed, isKey, rfl⟩⟩
  · right
    refine ⟨represents.holds.find_absent fun item listed isKey => ?_,
      OrdDict.find_eq_none.mpr present⟩
    exact present (represents.mem_iff.mpr ⟨item, listed, isKey⟩)

end Represents

section Changes

variable {alloc : Allocator} {memory later : KvHeap ν} {dict : HashHead}
  {items : List Nat} {abs : OrdDict UInt64 ν} {key : UInt64} {value : ν} {kv : Nat}
  {scribble : HashHeap ν → Nat → HashHeap ν}

/-- `dict_add` adds a new key at the end, or there is no memory. -/
theorem Represents.add (represents : Represents alloc memory dict items abs) (value : ν)
    (absent : key ∉ abs) (region : alloc.brk0 ≤ kv ∧ kv < alloc.brk0 + brkSize)
    (notLive : memory.live kv = false) :
    dictAdd alloc.grants memory.heap dict key value kv = .error (.quit "out of memory") ∨
      ∃ heap added, dictAdd alloc.grants memory.heap dict key value kv =
          .ok (heap, added) ∧
        Represents alloc ⟨heap, Function.update memory.live kv true⟩ added
          (items ++ [kv]) (abs.insertNew key value) ∧
        ∀ item, item ∉ items ++ [kv] → heap.SameAt memory.heap item := by
  have fresh : kv ∉ items := by
    intro listed
    rw [represents.live kv listed] at notLive
    cases notLive
  have notNull : kv ≠ 0 := by
    have aboveNull := alloc.aboveNull
    omega
  have others : ∀ item ∈ items, item ≠ kv := by
    rintro item listed rfl
    exact fresh listed
  have newKey : ∀ item ∈ items, memory.heap.key item ≠ keyBytes key :=
    fun item listed isKey => absent (represents.mem_iff.mpr ⟨item, listed, isKey⟩)
  have stored : HashHead.Holds alloc
      { memory.heap with data := Function.update memory.heap.data kv value } dict items :=
    represents.holds.congr fun item listed =>
      ⟨⟨rfl, rfl⟩, ⟨rfl, rfl⟩, rfl, rfl, Function.update_of_ne (others item listed) _ _⟩
  have found : dictFind memory.heap dict key = .ok 0 :=
    represents.holds.find_absent newKey
  have runs : dictAdd alloc.grants memory.heap dict key value kv =
      hashAddKeyptr alloc.grants
        { memory.heap with data := Function.update memory.heap.data kv value } dict
        (keyBytes key) kv := by
    simp only [dictAdd, found, bind, Except.bind, beq_self_eq_true, check, if_true,
      if_neg notNull]
  rw [runs]
  rcases stored.added region fresh newKey with
    failed | ⟨heap, added, returned, holds, sameKey, sameHashv, sameData, same⟩
  · exact Or.inl failed
  · refine Or.inr ⟨heap, added, returned, ⟨holds, ?_, ?_⟩, fun item notListed => ?_⟩
    · intro item listed
      rcases List.mem_append.mp listed with before | isNew
      · simp only [Function.update_of_ne (others item before)]
        exact represents.live item before
      · rw [List.mem_singleton.mp isNew]
        exact Function.update_self ..
    · have sameEntries : items.map (entryAt heap) = items.map (entryAt memory.heap) := by
        refine List.map_congr_left fun item listed => ?_
        simp only [entryAt, sameKey, sameData, Function.update_of_ne (others item listed)]
      rw [OrdDict.entries_insertNew_of_not_mem value absent, List.map_append,
        List.map_append, sameEntries, represents.entries]
      simp only [List.map_cons, List.map_nil, entryAt, sameKey, sameData,
        Function.update_self]
    · have different : item ≠ kv := fun isKv => notListed (by simp [isKv])
      refine ⟨same.app item notListed, same.bkt item notListed, ?_, ?_, ?_⟩
      · simp only [sameKey, Function.update_of_ne different]
      · simp only [sameHashv, Function.update_of_ne different]
      · simp only [sameData, Function.update_of_ne different]

/-- The entries of the other items, when one item is gone. -/
private theorem Represents.entries_erase
    (represents : Represents alloc memory dict items abs) (listed : kv ∈ items)
    (isKey : memory.heap.key kv = keyBytes key) :
    (items.erase kv).map (entryAt memory.heap) =
      (abs.erase key).entries.map fun entry => (keyBytes entry.1, entry.2) := by
  have others : ∀ item ∈ items,
      (item != kv) = ((fun entry => entry.1 != keyBytes key) ∘ entryAt memory.heap) item := by
    intro item isItem
    rw [Bool.eq_iff_iff]
    simp only [Function.comp_apply, entryAt, bne_iff_ne, ne_eq, not_iff_not]
    constructor
    · rintro rfl
      exact isKey
    · intro sameKey
      exact represents.holds.key_unique listed isItem (sameKey.trans isKey.symm)
  have keys : ∀ entry ∈ abs.entries,
      ((fun entry => entry.1 != keyBytes key) ∘
        fun entry : UInt64 × ν => (keyBytes entry.1, entry.2)) entry =
          decide (entry.1 ≠ key) := by
    intro entry _
    rw [Bool.eq_iff_iff]
    simp only [Function.comp_apply, bne_iff_ne, ne_eq, decide_eq_true_eq, not_iff_not]
    exact ⟨keyBytes_injective, congrArg keyBytes⟩
  rw [represents.holds.distinct.erase_eq_filter, List.filter_congr others,
    ← List.filter_map, represents.entries, List.filter_map, List.filter_congr keys]
  rfl

/-- `HASH_DEL` and `free` remove an item, and leave all others. -/
theorem Represents.remove (represents : Represents alloc memory dict items abs)
    (frame : ∀ heap kv item, item ≠ kv → (scribble heap kv).SameAt heap item)
    (listed : kv ∈ items) (isKey : memory.heap.key kv = keyBytes key) :
    ∃ later removed, dictRemove scribble (memory, dict) kv = .ok (later, removed) ∧
      Represents alloc later removed (items.erase kv) (abs.erase key) ∧
      (∀ item, item ∉ items → later.heap.SameAt memory.heap item) ∧
      ∀ item, item ≠ kv → later.live item = memory.live item := by
  obtain ⟨app, bkt, removed, deletes, holds, same⟩ := represents.holds.deleted listed
  have isLive := represents.live kv listed
  have freed : ∀ item, item ≠ kv →
      (scribble { memory.heap with app := app, bkt := bkt } kv).SameAt
        { memory.heap with app := app, bkt := bkt } item :=
    fun item => frame _ kv item
  have rest : ∀ item ∈ items.erase kv, item ≠ kv ∧ item ∈ items :=
    fun item inRest => represents.holds.distinct.mem_erase_iff.mp inRest
  refine ⟨⟨scribble { memory.heap with app := app, bkt := bkt } kv,
    Function.update memory.live kv false⟩, removed, ?_, ⟨?_, ?_, ?_⟩, ?_, ?_⟩
  · simp only [dictRemove, deletes, free, isLive, if_true]
    rfl
  · exact holds.congr fun item inRest => freed item (rest item inRest).1
  · intro item inRest
    simp only [Function.update_of_ne (rest item inRest).1]
    exact represents.live item (rest item inRest).2
  · have sameEntries : (items.erase kv).map
          (entryAt (scribble { memory.heap with app := app, bkt := bkt } kv)) =
        (items.erase kv).map (entryAt memory.heap) := by
      refine List.map_congr_left fun item inRest => ?_
      have same := freed item (rest item inRest).1
      rw [entryAt, entryAt, same.key, same.data]
    rw [sameEntries]
    exact represents.entries_erase listed isKey
  · intro item notListed
    have different : item ≠ kv := by
      rintro rfl
      exact notListed listed
    exact (freed item different).trans
      ⟨same.app item notListed, same.bkt item notListed, rfl, rfl, rfl⟩
  · exact fun item different => Function.update_of_ne different _ _

end Changes

section Loops

variable {alloc : Allocator} {memory : KvHeap ν} {dict : HashHead}
  {items : List Nat} {abs : OrdDict UInt64 ν} {fuel : Nat}
  {scribble : HashHeap ν → Nat → HashHeap ν}

/-- Items are fewer than the steps that a loop may take. -/
theorem Represents.length_lt (represents : Represents alloc memory dict items abs) :
    items.length < addressBound := by
  have fits := represents.holds.length_le
  have bounds : brkSize < addressBound := by decide
  omega

/-- The loop of `dict_clear` removes all items. -/
private theorem Represents.clearLoop (represents : Represents alloc memory dict items abs)
    (frame : ∀ heap kv item, item ≠ kv → (scribble heap kv).SameAt heap item)
    (enough : items.length < fuel) :
    ∃ later cleared, hashIter (fun state : KvHeap ν × HashHead => state.1.heap.app)
          (dictRemove scribble) fuel (memory, dict) dict.head
          (if dict.head = 0 then 0 else memory.heap.app.next dict.head) =
        .ok (later, cleared) ∧
      Represents alloc later cleared [] ∅ ∧
      ∀ item, item ∉ items →
        later.heap.SameAt memory.heap item ∧ later.live item = memory.live item := by
  induction items generalizing memory dict abs fuel with
  | nil =>
      cases fuel with
      | zero => exact (Nat.not_lt_zero _ enough).elim
      | succ fuel =>
          have isNull := represents.holds.nil_iff.mp rfl
          refine ⟨memory, dict, ?_, ⟨represents.holds, represents.live, rfl⟩, ?_⟩
          · rw [hashIter, if_pos isNull]
          · exact fun item _ => ⟨⟨⟨rfl, rfl⟩, ⟨rfl, rfl⟩, rfl, rfl, rfl⟩, rfl⟩
  | cons first rest inductionHypothesis =>
      cases fuel with
      | zero => exact (Nat.not_lt_zero _ enough).elim
      | succ fuel =>
          obtain ⟨last, chain, -⟩ := represents.holds.chain
          have isFirst : dict.head = first := chain.head_eq
          have notNull : dict.head ≠ 0 := by
            rw [isFirst]
            exact represents.holds.ne_zero (List.mem_cons_self ..)
          have isSecond := chain.next_eq
          obtain ⟨key, isKey⟩ := represents.keyed (List.mem_cons_self ..)
          obtain ⟨middle, removed, removes, represented, same, sameLive⟩ :=
            represents.remove frame (List.mem_cons_self ..) isKey
          rw [List.erase_cons_head] at represented
          have notInRest := (List.nodup_cons.mp represents.holds.distinct).1
          obtain ⟨lastOfRest, chainOfRest, -⟩ := represented.holds.chain
          have sameLink : memory.heap.app.next first = removed.head := by
            rw [← isFirst, isSecond, chainOfRest.head_eq]
          obtain ⟨later, cleared, clears, empty, sameRest⟩ := inductionHypothesis
            represented (Nat.lt_of_succ_lt_succ enough)
          refine ⟨later, cleared, ?_, empty, fun item notListed => ?_⟩
          · rw [hashIter, if_neg notNull, isFirst, removes, if_neg (isFirst ▸ notNull),
              sameLink]
            exact clears
          · simp only [List.mem_cons, not_or] at notListed
            obtain ⟨sameLater, liveLater⟩ := sameRest item notListed.2
            have sameMiddle := same item (by simp [notListed])
            exact ⟨sameLater.trans sameMiddle,
              liveLater.trans (sameLive item notListed.1)⟩

/-- `dict_clear` leaves an empty dictionary. -/
theorem Represents.clear (represents : Represents alloc memory dict items abs)
    (frame : ∀ heap kv item, item ≠ kv → (scribble heap kv).SameAt heap item) :
    ∃ later cleared, dictClear scribble memory dict = .ok (later, cleared) ∧
      Represents alloc later cleared [] ∅ ∧
      ∀ item, item ∉ items →
        later.heap.SameAt memory.heap item ∧ later.live item = memory.live item :=
  represents.clearLoop frame represents.length_lt

/-- `HASH_ITER` runs over the nodes of a chain in their order. -/
private theorem hashIter_chain {β : Type} (links : Links) (read : Nat → β)
    {before head last : Nat} {nodes : List Nat} (done : List β)
    (segment : links.Segment before head nodes last 0) (enough : nodes.length < fuel) :
    hashIter (fun _ => links) (fun (done : List β) node => .ok (done ++ [read node])) fuel
      done head (if head = 0 then 0 else links.next head) =
        .ok (done ++ nodes.map read) := by
  induction nodes generalizing before head fuel done with
  | nil =>
      cases fuel with
      | zero => exact (Nat.not_lt_zero _ enough).elim
      | succ fuel => rw [hashIter, if_pos segment.1, List.map_nil, List.append_nil]
  | cons first rest inductionHypothesis =>
      cases fuel with
      | zero => exact (Nat.not_lt_zero _ enough).elim
      | succ fuel =>
          obtain ⟨isFirst, notNull, -, segment⟩ := segment
          subst isFirst
          have others := inductionHypothesis (done ++ [read head]) segment
            (Nat.lt_of_succ_lt_succ enough)
          rw [List.append_assoc, List.singleton_append] at others
          rw [hashIter, if_neg notNull, if_neg notNull]
          exact others

/-- A loop over a dictionary reads its entries in insertion order. -/
theorem Represents.readItems (represents : Represents alloc memory dict items abs) :
    dictItems memory.heap dict =
      .ok (abs.entries.map fun entry => (keyBytes entry.1, entry.2)) := by
  obtain ⟨last, chain, -⟩ := represents.holds.chain
  rw [← represents.entries]
  exact hashIter_chain memory.heap.app (entryAt memory.heap) [] chain represents.length_lt

/-- `HASH_CNT` counts the entries. -/
theorem Represents.count (represents : Represents alloc memory dict items abs) :
    hashCnt dict = UInt32.ofNat abs.entries.length := by
  have sameLength : items.length = abs.entries.length := by
    have lengths := congrArg List.length represents.entries
    simpa only [List.length_map] using lengths
  rw [← sameLength, hashCnt]
  split
  next isNull =>
    rw [represents.holds.nil_iff.mpr isNull]
    rfl
  next notNull =>
    exact (represents.holds.tbl fun empty => notNull
      (represents.holds.nil_iff.mp empty)).counted

end Loops

section States

/-- Each dictionary represents one, and no item is in two dictionaries. -/
structure Refines (alloc : Allocator) (state : KvState ν) (abs : Nat → OrdDict UInt64 ν)
    (items : Nat → List Nat) : Prop where
  represents : ∀ dict,
    Represents alloc state.memory (state.dicts dict) (items dict) (abs dict)
  apart : ∀ {first second item : Nat}, item ∈ items first → item ∈ items second →
    first = second

variable {alloc : Allocator} {state : KvState ν} {abs : Nat → OrdDict UInt64 ν}
  {items : Nat → List Nat} {scribble : HashHeap ν → Nat → HashHeap ν}

/-- A change of one dictionary. -/
private theorem Refines.change (refines : Refines alloc state abs items) {changed : Nat}
    {memory : KvHeap ν} {dict : HashHead} {own : List Nat} {ownAbs : OrdDict UInt64 ν}
    (represents : Represents alloc memory dict own ownAbs)
    (others : ∀ other item, other ≠ changed → item ∈ items other →
      item ∉ own ∧ memory.heap.SameAt state.memory.heap item ∧
        memory.live item = state.memory.live item) :
    Refines alloc ⟨memory, Function.update state.dicts changed dict⟩
      (Function.update abs changed ownAbs) (Function.update items changed own) where
  represents asked := by
    by_cases same : asked = changed
    · subst same
      simp only [Function.update_self]
      exact represents
    · simp only [Function.update_of_ne same]
      exact (refines.represents asked).congr
        (fun item listed => (others asked item same listed).2.1)
        (fun item listed => (others asked item same listed).2.2)
  apart := by
    intro first second item inFirst inSecond
    by_cases isFirst : first = changed
    · subst isFirst
      by_cases isSecond : second = first
      · exact isSecond.symm
      · simp only [Function.update_self, Function.update_of_ne isSecond] at inFirst inSecond
        exact ((others second item isSecond inSecond).1 inFirst).elim
    · by_cases isSecond : second = changed
      · subst isSecond
        simp only [Function.update_self, Function.update_of_ne isFirst] at inFirst inSecond
        exact ((others first item isFirst inFirst).1 inSecond).elim
      · simp only [Function.update_of_ne isFirst, Function.update_of_ne isSecond]
          at inFirst inSecond
        exact refines.apart inFirst inSecond

/-- An item of another dictionary is not one of this one. -/
private theorem Refines.not_mem (refines : Refines alloc state abs items)
    {dict other item : Nat} (different : other ≠ dict) (listed : item ∈ items other) :
    item ∉ items dict :=
  fun own => different (refines.apart listed own)

/--
A call does on the memory what it does on dictionaries in insertion order: it fails
where that fails, and else returns, or there is no memory.
-/
theorem Refines.call (refines : Refines alloc state abs items)
    (frame : ∀ heap kv item, item ≠ kv → (scribble heap kv).SameAt heap item)
    {call : KvCall ν} (allocates : call.Allocates alloc state.memory.live) :
    (∃ fault, call.spec abs = .error fault ∧
        call.run alloc.grants scribble state = .error fault) ∨
      ∃ next, call.spec abs = .ok next ∧
        (call.run alloc.grants scribble state = .error (.quit "out of memory") ∨
          call.run alloc.grants scribble state = .error (.quit "Out of memory") ∨
          ∃ after nextItems, call.run alloc.grants scribble state = .ok after ∧
            Refines alloc after next nextItems) := by
  cases call with
  | add dict key value kv =>
      have represents := refines.represents dict
      rcases represents.find key with ⟨found, listed, finds, -, present⟩ | ⟨finds, absent⟩
      · left
        have notNull : found ≠ 0 := represents.holds.ne_zero listed
        have isMember : key ∈ abs dict := OrdDict.mem_of_find present
        refine ⟨.check "dict_add", ?_, ?_⟩
        · simp only [KvCall.spec, Mcfi.dictAdd, OrdDict.add?, if_pos isMember, bind,
            Except.bind]
        · simp only [KvCall.run, dictAdd, finds, bind, Except.bind, check,
            beq_eq_false_iff_ne.mpr notNull, Bool.false_eq_true, if_false]
      · right
        have notMember := OrdDict.find_eq_none.mp absent
        refine ⟨Function.update abs dict ((abs dict).insertNew key value), ?_, ?_⟩
        · simp only [KvCall.spec, Mcfi.dictAdd, OrdDict.add?, if_neg notMember, bind,
            Except.bind]
          rfl
        · by_cases isNull : kv = 0
          · right
            left
            simp only [KvCall.run, dictAdd, finds, bind, Except.bind, check,
              beq_self_eq_true, if_true, if_pos isNull]
          · rcases allocates with isZero | ⟨low, high, notLive⟩
            · exact (isNull isZero).elim
            rcases represents.add value notMember ⟨low, high⟩ notLive with
              failed | ⟨heap, added, adds, represented, same⟩
            · left
              simp only [KvCall.run, failed, bind, Except.bind]
            · refine Or.inr (Or.inr ⟨_, _, ?_, refines.change represented ?_⟩)
              · simp only [KvCall.run, adds, bind, Except.bind]
                rfl
              · intro other item different listed
                have notOwn := refines.not_mem different listed
                have notNew : item ≠ kv := by
                  rintro rfl
                  rw [(refines.represents other).live item listed] at notLive
                  cases notLive
                have notListed : item ∉ items dict ++ [kv] := by
                  simp only [List.mem_append, List.mem_singleton, not_or]
                  exact ⟨notOwn, notNew⟩
                exact ⟨notListed, same item notListed, Function.update_of_ne notNew _ _⟩
  | del dict key =>
      right
      have represents := refines.represents dict
      refine ⟨Function.update abs dict ((abs dict).erase key), rfl, Or.inr (Or.inr ?_)⟩
      rcases represents.find key with ⟨kv, listed, finds, isKey, -⟩ | ⟨finds, absent⟩
      · obtain ⟨later, removed, removes, represented, same, sameLive⟩ :=
          represents.remove frame listed isKey
        refine ⟨_, _, ?_, refines.change represented ?_⟩
        · simp only [KvCall.run, dictDel, finds, bind, Except.bind,
            if_neg (represents.holds.ne_zero listed), removes]
          rfl
        · intro other item different inOther
          have notOwn := refines.not_mem different inOther
          refine ⟨fun inRest => notOwn (List.mem_of_mem_erase inRest), same item notOwn,
            sameLive item ?_⟩
          rintro rfl
          exact notOwn listed
      · have unchanged : (abs dict).erase key = abs dict :=
          OrdDict.erase_of_not_mem (OrdDict.find_eq_none.mp absent)
        rw [unchanged]
        refine ⟨_, _, ?_, refines.change represents ?_⟩
        · simp only [KvCall.run, dictDel, finds, bind, Except.bind, if_true]
          rfl
        · intro other item different inOther
          exact ⟨refines.not_mem different inOther, ⟨⟨rfl, rfl⟩, ⟨rfl, rfl⟩, rfl, rfl, rfl⟩,
            rfl⟩
  | clear dict =>
      right
      obtain ⟨later, cleared, clears, represented, same⟩ :=
        (refines.represents dict).clear frame
      refine ⟨Function.update abs dict ∅, rfl,
        Or.inr (Or.inr ⟨_, _, ?_, refines.change represented ?_⟩)⟩
      · simp only [KvCall.run, clears, bind, Except.bind]
        rfl
      · intro other item different inOther
        exact ⟨List.not_mem_nil, same item (refines.not_mem different inOther)⟩

/-- The memory that no dictionary has an item in. -/
structure Started (state : KvState ν) : Prop where
  empty : ∀ dict, (state.dicts dict).head = 0

/-- Empty dictionaries represent empty ones. -/
theorem Started.refines {start : KvState ν} (started : Started start) :
    Refines alloc start (fun _ => ∅) fun _ => [] where
  represents dict :=
    { holds := HashHead.Holds.empty (started.empty dict)
      live := fun item listed => by cases listed
      entries := rfl }
  apart := by
    intro first second item inFirst _
    cases inFirst

/-- Every run of calls does what it does on dictionaries in insertion order. -/
theorem KvRun.refines {start : KvState ν} {calls : List (KvCall ν)}
    (started : Started start)
    (frame : ∀ heap kv item, item ≠ kv → (scribble heap kv).SameAt heap item)
    (run : KvRun alloc scribble start calls state) :
    ∃ abs items, calls.foldlM KvCall.spec (fun _ => ∅) = .ok abs ∧
      Refines alloc state abs items := by
  induction run with
  | refl => exact ⟨_, _, rfl, started.refines⟩
  | tail run allocates returned inductionHypothesis =>
      obtain ⟨abs, items, specified, refines⟩ := inductionHypothesis
      rcases refines.call frame allocates with ⟨fault, -, fails⟩ |
        ⟨next, isNext, fails | fails | ⟨after, nextItems, returns, represented⟩⟩
      · rw [returned] at fails
        cases fails
      · rw [returned] at fails
        cases fails
      · rw [returned] at fails
        cases fails
      · cases returned.symm.trans returns
        refine ⟨next, nextItems, ?_, represented⟩
        rw [List.foldlM_append, specified]
        simp only [List.foldlM_cons, List.foldlM_nil, isNext, bind, Except.bind, pure,
          Except.pure]

/--
In every state that calls reach from empty dictionaries, with any blocks that `malloc`
returns and whatever `free` writes into a block, each dictionary finds, lists and
counts what the calls have left in a dictionary in insertion order; and each further
call fails only where the call on that one does, or for want of memory.
-/
theorem kv_refines {start : KvState ν} {calls : List (KvCall ν)}
    (started : Started start)
    (frame : ∀ heap kv item, item ≠ kv → (scribble heap kv).SameAt heap item)
    (run : KvRun alloc scribble start calls state) :
    ∃ abs, calls.foldlM KvCall.spec (fun _ => ∅) = .ok abs ∧
      (∀ dict key, ∃ kv,
        dictFind state.memory.heap (state.dicts dict) key = .ok kv ∧
          (abs dict).find key =
            if kv = 0 then none else some (state.memory.heap.data kv)) ∧
      (∀ dict, dictItems state.memory.heap (state.dicts dict) =
        .ok ((abs dict).entries.map fun entry => (keyBytes entry.1, entry.2))) ∧
      (∀ dict, hashCnt (state.dicts dict) = UInt32.ofNat (abs dict).entries.length) ∧
      ∀ call : KvCall ν, call.Allocates alloc state.memory.live →
        ∀ fault, call.run alloc.grants scribble state = .error fault →
          call.spec abs = .error fault ∨ fault = .quit "out of memory" ∨
            fault = .quit "Out of memory" := by
  obtain ⟨abs, items, specified, refines⟩ := run.refines started frame
  refine ⟨abs, specified, fun dict key => ?_, fun dict => (refines.represents dict).readItems,
    fun dict => (refines.represents dict).count, fun call allocates fault fails => ?_⟩
  · rcases (refines.represents dict).find key with
      ⟨kv, listed, finds, -, found⟩ | ⟨finds, absent⟩
    · refine ⟨kv, finds, ?_⟩
      rw [if_neg ((refines.represents dict).holds.ne_zero listed)]
      exact found
    · refine ⟨0, finds, ?_⟩
      rw [if_pos rfl]
      exact absent
  · rcases refines.call frame allocates with ⟨other, specFails, otherFails⟩ |
      ⟨next, -, noTable | noItem | ⟨after, nextItems, returns, -⟩⟩
    · cases fails.symm.trans otherFails
      exact Or.inl specFails
    · cases fails.symm.trans noTable
      exact Or.inr (Or.inl rfl)
    · cases fails.symm.trans noItem
      exact Or.inr (Or.inr rfl)
    · cases fails.symm.trans returns

end States

section Integrity

/-- `HASH_FSCK` follows a chain to its end and counts it. -/
private theorem fsckChain_segment {links : Links} {message : String}
    {before head last fuel : Nat} {nodes : List Nat} {count : UInt32}
    (segment : links.Segment before head nodes last 0) (enough : nodes.length < fuel) :
    fsckChain links message fuel before head count =
      .ok (count + UInt32.ofNat nodes.length) := by
  induction nodes generalizing before head fuel count with
  | nil =>
      cases fuel with
      | zero => exact (Nat.not_lt_zero _ enough).elim
      | succ fuel =>
          rw [fsckChain, if_pos segment.1, List.length_nil]
          exact congrArg Except.ok (UInt32.add_zero count).symm
  | cons first rest inductionHypothesis =>
      cases fuel with
      | zero => exact (Nat.not_lt_zero _ enough).elim
      | succ fuel =>
          obtain ⟨isFirst, notNull, back, segment⟩ := segment
          subst isFirst
          rw [fsckChain, if_neg notNull, if_neg (not_not.mpr back.symm),
            inductionHypothesis segment (Nat.lt_of_succ_lt_succ enough), List.length_cons,
            Nat.add_comm, UInt32.ofNat_add, UInt32.add_assoc]
          rfl

/-- The items of the first buckets, bucket by bucket. -/
private theorem countP_succ (items : List Nat) (bucket : Nat → Nat) (n : Nat) :
    items.countP (fun item => decide (bucket item < n + 1)) =
      items.countP (fun item => decide (bucket item < n)) +
        items.countP (fun item => decide (bucket item = n)) := by
  induction items with
  | nil => rfl
  | cons item rest inductionHypothesis =>
      simp only [List.countP_cons, inductionHypothesis, decide_eq_true_eq]
      split_ifs <;> omega

variable {alloc : Allocator} {heap : HashHeap ν} {table : HashHead} {items : List Nat}

/-- The counts of the first buckets. -/
private theorem fsckBuckets (holds : table.Holds alloc heap items) (some : items ≠ [])
    {n : Nat} (within : n ≤ table.tbl.numBuckets.toNat) :
    (List.range n).foldlM (fsckBucket heap table.tbl) 0 =
      .ok (UInt32.ofNat (items.countP fun item =>
        decide (hashToBkt (heap.hashv item) table.tbl.numBuckets < n))) := by
  induction n with
  | zero =>
      simp only [Nat.not_lt_zero, decide_false, List.countP_false]
      rfl
  | succ n inductionHypothesis =>
      obtain ⟨chain, last, segment, distinct, counted, listed⟩ :=
        (holds.tbl some).hold n within
      have sameLength : chain.length = items.countP fun item =>
          decide (hashToBkt (heap.hashv item) table.tbl.numBuckets = n) := by
        rw [List.countP_eq_length_filter]
        refine ((List.perm_ext_iff_of_nodup distinct (holds.distinct.filter _)).mpr
          fun item => ?_).length_eq
        rw [listed item, List.mem_filter, decide_eq_true_eq]
      have enough : chain.length < addressBound := by
        have fits := holds.length_le
        have atMost := List.countP_le_length (l := items) (p := fun item =>
          decide (hashToBkt (heap.hashv item) table.tbl.numBuckets = n))
        have bounds : brkSize < addressBound := by decide
        omega
      rw [List.range_succ, List.foldlM_append, inductionHypothesis (Nat.le_of_succ_le within)]
      simp only [List.foldlM_cons, List.foldlM_nil, fsckBucket,
        fsckChain_segment segment enough, bind, Except.bind, pure, Except.pure,
        UInt32.zero_add, counted, ne_eq, not_true, if_false]
      rw [countP_succ, UInt32.ofNat_add, sameLength]

/-- `HASH_FSCK` finds no fault in a table that holds its items. -/
theorem fsck_holds (holds : table.Holds alloc heap items) :
    hashFsck heap table = .ok () := by
  unfold hashFsck
  split
  next => rfl
  next notNull =>
    have some : items ≠ [] := fun empty => notNull (holds.nil_iff.mp empty)
    obtain ⟨last, chain, -⟩ := holds.chain
    have enough : items.length < addressBound := by
      have fits := holds.length_le
      have bounds : brkSize < addressBound := by decide
      omega
    have allBuckets : (items.countP fun item =>
        decide (hashToBkt (heap.hashv item) table.tbl.numBuckets <
          table.tbl.numBuckets.toNat)) = items.length := by
      rw [List.countP_eq_length]
      intro item _
      exact decide_eq_true (hashToBkt_lt _ (holds.tbl some).positive)
    have counted := (holds.tbl some).counted
    simp only [fsckBuckets holds some (Nat.le_refl _), allBuckets, bind, Except.bind,
      counted, ne_eq, not_true, if_false, fsckChain_segment chain enough, UInt32.zero_add]

/--
`HASH_FSCK` finds no fault in any dictionary, in every state that calls reach from
empty dictionaries.
-/
theorem kv_fsck {start state : KvState ν} {calls : List (KvCall ν)}
    {scribble : HashHeap ν → Nat → HashHeap ν} (started : Started start)
    (frame : ∀ heap kv item, item ≠ kv → (scribble heap kv).SameAt heap item)
    (run : KvRun alloc scribble start calls state) (dict : Nat) :
    hashFsck state.memory.heap (state.dicts dict) = .ok () := by
  obtain ⟨abs, items, -, refines⟩ := run.refines started frame
  exact fsck_holds (refines.represents dict).holds

end Integrity

namespace KvExample

/-- An allocator whose region starts at a page, and whose tables are small. -/
def smallAllocator : Allocator where
  grants size := decide (size < 4096)
  brk0 := 0x1000
  aboveNull := by decide
  belowEnd := by decide
  bounded size granted := by
    have small := of_decide_eq_true granted
    omega

/-- No dictionary has an item. -/
def emptyState : KvState UInt64 where
  memory := ⟨⟨⟨fun _ => 0, fun _ => 0⟩, ⟨fun _ => 0, fun _ => 0⟩, fun _ => [], fun _ => 0,
    fun _ => 0⟩, fun _ => false⟩
  dicts := fun _ => ⟨0, ⟨emptyBuckets, 0, 0, 0, 0, 0, 0, 0, 0⟩⟩

/-- `free` clears the links of a block. -/
def clearLinks (heap : HashHeap UInt64) (kv : Nat) : HashHeap UInt64 :=
  { heap with
    app :=
      { next := Function.update heap.app.next kv 0
        prev := Function.update heap.app.prev kv 0 } }

theorem clearLinks_frame (heap : HashHeap UInt64) (kv item : Nat) (different : item ≠ kv) :
    (clearLinks heap kv).SameAt heap item :=
  ⟨⟨Function.update_of_ne different _ _, Function.update_of_ne different _ _⟩, ⟨rfl, rfl⟩,
    rfl, rfl, rfl⟩

/-- A call from a state, which is not changed when the call fails. -/
def after (state : KvState UInt64) (call : KvCall UInt64) : KvState UInt64 :=
  (call.run smallAllocator.grants clearLinks state).toOption.getD state

theorem run_after {state : KvState UInt64} {call : KvCall UInt64}
    (returned :
      (call.run smallAllocator.grants clearLinks state).toOption.isSome = true) :
    call.run smallAllocator.grants clearLinks state = .ok (after state call) := by
  obtain ⟨next, found⟩ := Option.isSome_iff_exists.mp returned
  rw [after, found]
  exact toOption_eq_some.mp found

/-- A run goes on with a call that returns. -/
theorem run_next {calls : List (KvCall UInt64)} {state : KvState UInt64}
    (call : KvCall UInt64) (run : KvRun smallAllocator clearLinks emptyState calls state)
    (allocates : call.Allocates smallAllocator state.memory.live)
    (returned :
      (call.run smallAllocator.grants clearLinks state).toOption.isSome = true) :
    KvRun smallAllocator clearLinks emptyState (calls ++ [call]) (after state call) :=
  .tail run allocates (run_after returned)

/-- Two keys are added to a dictionary, and the first one is deleted. -/
def someCalls : List (KvCall UInt64) :=
  [.add 3 7 70 0x1000, .add 3 8 80 0x1060, .del 3 7]

/-- The dictionary with both keys. -/
def bothAdded : KvState UInt64 :=
  after (after emptyState (.add 3 7 70 0x1000)) (.add 3 8 80 0x1060)

theorem run_some :
    KvRun smallAllocator clearLinks emptyState someCalls (after bothAdded (.del 3 7)) := by
  have first := run_next (.add 3 7 70 0x1000) .refl
    (Or.inr ⟨by decide, by decide, rfl⟩) (by decide +kernel)
  have second := run_next (.add 3 8 80 0x1060) first
    (Or.inr ⟨by decide, by decide, by decide +kernel⟩) (by decide +kernel)
  exact run_next (.del 3 7) second trivial (by decide +kernel)

theorem started_empty : Started emptyState where
  empty _ := rfl

/-- The dictionary has the second key only. -/
theorem kv_refines_some :
    dictItems (after bothAdded (.del 3 7)).memory.heap ((after bothAdded (.del 3 7)).dicts 3) =
      .ok [(keyBytes 8, 80)] := by
  obtain ⟨abs, specified, -, items, -, -⟩ :=
    kv_refines started_empty clearLinks_frame run_some
  have entries : (Except.toOption (someCalls.foldlM KvCall.spec fun _ => ∅)).map
      (fun abs => (abs 3).entries) = some [(8, 80)] := by
    decide +kernel
  rw [specified] at entries
  have isEntry : (abs 3).entries = [(8, 80)] := Option.some.inj entries
  rw [items 3, isEntry]
  rfl

/-- The dictionary passes the check. -/
theorem kv_fsck_some :
    hashFsck (after bothAdded (.del 3 7)).memory.heap ((after bothAdded (.del 3 7)).dicts 3) =
      .ok () :=
  kv_fsck started_empty clearLinks_frame run_some 3

end KvExample

end KvTable

end Mcfi
