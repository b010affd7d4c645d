import Mathlib.Data.List.Perm.Subperm
import Mcfi.Uthash

namespace Mcfi

/-!
# The buckets of a hash table

The links of a table's buckets hold its items when each bucket has a chain of the
items that hash to it, and counts them: what `HASH_FSCK` checks of the buckets.  An
expansion moves every item once, from the chains of the old buckets to those of the
new ones, in links that it shares with the chains that it has not reached.
-/

section Index

variable {num : UInt32}

/-- An item goes to one of the buckets. -/
theorem hashToBkt_lt (hashv : UInt32) (positive : 0 < num.toNat) :
    hashToBkt hashv num < num.toNat := by
  have atMost : (hashv &&& (num - 1)).toNat ≤ (num - 1).toNat := by
    rw [UInt32.toNat_and]
    exact Nat.and_le_right
  have one : (num - 1).toNat = num.toNat - 1 :=
    UInt32.toNat_sub_of_le num 1 (UInt32.le_iff_toNat_le.mpr positive)
  unfold hashToBkt
  omega

end Index

section Buckets

/-- Each bucket has a chain of the items that hash to it, and counts them. -/
def BucketsHold (links : Links) (hashv : Nat → UInt32) (num : UInt32)
    (buckets : Nat → UtHashBucket) (items : List Nat) : Prop :=
  ∀ i < num.toNat, ∃ chain last,
    links.Chain (buckets i).hhHead chain last ∧ chain.Nodup ∧
      (buckets i).count = UInt32.ofNat chain.length ∧
      ∀ item, item ∈ chain ↔ item ∈ items ∧ hashToBkt (hashv item) num = i

variable {links later : Links} {hashv laterHashv : Nat → UInt32} {num : UInt32}
  {buckets : Nat → UtHashBucket} {items : List Nat} {item : Nat}

/-- Empty buckets hold no item. -/
theorem BucketsHold.empty : BucketsHold links hashv num emptyBuckets [] := by
  intro i _
  refine ⟨[], 0, ⟨rfl, rfl⟩, List.nodup_nil, rfl, fun item => ?_⟩
  simp

/-- What the buckets hold depends on their items only. -/
theorem BucketsHold.congr (hold : BucketsHold links hashv num buckets items)
    (sameLinks : ∀ item ∈ items, later.SameAt links item)
    (sameHashv : ∀ item ∈ items, laterHashv item = hashv item) :
    BucketsHold later laterHashv num buckets items := by
  intro i below
  obtain ⟨chain, last, segment, distinct, counted, listed⟩ := hold i below
  refine ⟨chain, last, segment.sameAt fun item inChain =>
    sameLinks item ((listed item).mp inChain).1, distinct, counted, fun item => ?_⟩
  rw [listed item]
  constructor
  · rintro ⟨isItem, isBucket⟩
    rw [sameHashv item isItem]
    exact ⟨isItem, isBucket⟩
  · rintro ⟨isItem, isBucket⟩
    rw [sameHashv item isItem] at isBucket
    exact ⟨isItem, isBucket⟩

/-- The first item of a bucket is one of its items. -/
theorem BucketsHold.head_mem (hold : BucketsHold links hashv num buckets items) {i : Nat}
    (below : i < num.toNat) (notNull : (buckets i).hhHead ≠ 0) :
    (buckets i).hhHead ∈ items ∧
      hashToBkt (hashv (buckets i).hhHead) num = i := by
  obtain ⟨chain, last, segment, -, -, listed⟩ := hold i below
  have some : chain ≠ [] := fun empty => notNull (segment.nil_iff.mp empty)
  exact (listed _).mp (segment.head_mem some)

/-- An item that is put into its bucket. -/
theorem BucketsHold.push (hold : BucketsHold links hashv num buckets items)
    (positive : 0 < num.toNat) (notNull : item ≠ 0) (fresh : item ∉ items)
    (expandMult : UInt32) :
    BucketsHold
      (links.pushFront (buckets (hashToBkt (hashv item) num)).hhHead item) hashv num
      (Function.update buckets (hashToBkt (hashv item) num)
        ⟨item, (buckets (hashToBkt (hashv item) num)).count + 1, expandMult⟩)
      (items ++ [item]) := by
  intro i below
  by_cases here : i = hashToBkt (hashv item) num
  · obtain ⟨chain, last, segment, distinct, counted, listed⟩ := hold i below
    have notListed : item ∉ chain := fun inChain => fresh ((listed item).mp inChain).1
    rw [← here, Function.update_self]
    refine ⟨item :: chain, _, segment.pushFront notNull notListed distinct,
      List.nodup_cons.mpr ⟨notListed, distinct⟩, ?_, fun other => ?_⟩
    · rw [counted, List.length_cons, UInt32.ofNat_add]
      rfl
    · rw [List.mem_cons, List.mem_append, List.mem_singleton, listed other]
      constructor
      · rintro (rfl | ⟨isItem, isBucket⟩)
        · exact ⟨Or.inr rfl, here.symm⟩
        · exact ⟨Or.inl isItem, isBucket⟩
      · rintro ⟨isItem | isNew, isBucket⟩
        · exact Or.inr ⟨isItem, isBucket⟩
        · exact Or.inl isNew
  · obtain ⟨chain, last, segment, distinct, counted, listed⟩ := hold i below
    rw [Function.update_of_ne here]
    have sameLinks : ∀ other ∈ chain,
        (links.pushFront (buckets (hashToBkt (hashv item) num)).hhHead item).SameAt
          links other := by
      intro other inChain
      obtain ⟨isItem, isBucket⟩ := (listed other).mp inChain
      refine Links.pushFront_sameAt ?_ ?_
      · rintro rfl
        exact fresh isItem
      · rintro rfl
        refine here (isBucket.symm.trans ?_)
        exact (hold.head_mem (hashToBkt_lt _ positive) (segment.ne_zero inChain)).2
    refine ⟨chain, last, segment.sameAt sameLinks, distinct, counted, fun other => ?_⟩
    rw [listed other, List.mem_append, List.mem_singleton]
    constructor
    · rintro ⟨isItem, isBucket⟩
      exact ⟨Or.inl isItem, isBucket⟩
    · rintro ⟨isItem | isNew, isBucket⟩
      · exact ⟨isItem, isBucket⟩
      · subst isNew
        exact (here isBucket.symm).elim

/-- The links of other items stay when an item is put into its bucket. -/
theorem BucketsHold.push_sameAt (hold : BucketsHold links hashv num buckets items)
    (positive : 0 < num.toNat) {other : Nat} (notListed : other ∉ items ++ [item]) :
    (links.pushFront (buckets (hashToBkt (hashv item) num)).hhHead item).SameAt
      links other := by
  simp only [List.mem_append, List.mem_singleton, not_or] at notListed
  by_cases isNull : (buckets (hashToBkt (hashv item) num)).hhHead = 0
  · refine ⟨?_, ?_⟩
    · simp only [Links.pushFront, Function.update_of_ne notListed.2]
    · simp only [Links.pushFront, isNull, ne_eq, not_true, if_false,
        Function.update_of_ne notListed.2]
  · refine Links.pushFront_sameAt notListed.2 ?_
    rintro rfl
    exact notListed.1 (hold.head_mem (hashToBkt_lt _ positive) isNull).1

/-- Buckets that hold items hold them in any order. -/
theorem BucketsHold.of_mem_iff {same : List Nat}
    (hold : BucketsHold links hashv num buckets items)
    (listed : ∀ item, item ∈ same ↔ item ∈ items) :
    BucketsHold links hashv num buckets same := by
  intro i below
  obtain ⟨chain, last, segment, distinct, counted, inChain⟩ := hold i below
  refine ⟨chain, last, segment, distinct, counted, fun item => ?_⟩
  rw [inChain item, listed item]

/-- The links of other items stay when an item is taken out of its bucket. -/
theorem BucketsHold.delete_sameAt (hold : BucketsHold links hashv num buckets items)
    (positive : 0 < num.toNat) (isItem : item ∈ items) {other : Nat}
    (notListed : other ∉ items) : (links.unlink item).SameAt links other := by
  obtain ⟨chain, last, segment, -, -, listed⟩ :=
    hold _ (hashToBkt_lt (hashv item) positive)
  obtain ⟨front, back, rfl⟩ := List.append_of_mem ((listed item).mpr ⟨isItem, rfl⟩)
  exact segment.unlink_sameAt fun inChain => notListed ((listed other).mp inChain).1

/-- An item that is taken out of its bucket. -/
theorem BucketsHold.delete {rest : List Nat}
    (hold : BucketsHold links hashv num buckets items) (positive : 0 < num.toNat)
    (isItem : item ∈ items)
    (others : ∀ other, other ∈ rest ↔ other ∈ items ∧ other ≠ item) :
    BucketsHold (links.unlink item) hashv num
      (Function.update buckets (hashToBkt (hashv item) num)
        { buckets (hashToBkt (hashv item) num) with
          count := (buckets (hashToBkt (hashv item) num)).count - 1
          hhHead :=
            if (buckets (hashToBkt (hashv item) num)).hhHead = item then links.next item
            else (buckets (hashToBkt (hashv item) num)).hhHead })
      rest := by
  obtain ⟨own, ownLast, ownSegment, ownDistinct, ownCounted, ownListed⟩ :=
    hold _ (hashToBkt_lt (hashv item) positive)
  obtain ⟨front, back, rfl⟩ := List.append_of_mem ((ownListed item).mpr ⟨isItem, rfl⟩)
  obtain ⟨distinctFront, distinctItem, apart⟩ := List.nodup_append.mp ownDistinct
  obtain ⟨notInBack, distinctBack⟩ := List.nodup_cons.mp distinctItem
  have notInFront : item ∉ front := fun listed => apart item listed item (by simp) rfl
  intro i below
  by_cases here : i = hashToBkt (hashv item) num
  · have sameHead :
        (if (buckets (hashToBkt (hashv item) num)).hhHead = item then links.next item
          else (buckets (hashToBkt (hashv item) num)).hhHead) =
        if links.prev item ≠ 0 then (buckets (hashToBkt (hashv item) num)).hhHead
          else links.next item := by
      rw [ite_not]
      exact if_congr (ownSegment.head_eq_iff ownDistinct) rfl rfl
    subst here
    rw [Function.update_self]
    have unlinked := ownSegment.unlink ownDistinct
    rw [← sameHead] at unlinked
    refine ⟨front ++ back, _, unlinked, ?_, ?_, fun other => ?_⟩
    · exact List.nodup_append.mpr ⟨distinctFront, distinctBack,
        fun a inFront b inBack => apart a inFront b (List.mem_cons_of_mem _ inBack)⟩
    · simp only [ownCounted, List.length_append, List.length_cons]
      rw [← Nat.add_assoc, UInt32.ofNat_add]
      exact UInt32.add_sub_cancel _ _
    · rw [others other, and_right_comm, ← ownListed other, List.mem_append,
        List.mem_append, List.mem_cons]
      constructor
      · rintro (inFront | inBack)
        · refine ⟨Or.inl inFront, ?_⟩
          rintro rfl
          exact notInFront inFront
        · refine ⟨Or.inr (Or.inr inBack), ?_⟩
          rintro rfl
          exact notInBack inBack
      · rintro ⟨inFront | isOther | inBack, notItem⟩
        · exact Or.inl inFront
        · exact (notItem isOther).elim
        · exact Or.inr inBack
  · obtain ⟨chain, last, segment, distinct, counted, listed⟩ := hold i below
    rw [Function.update_of_ne here]
    have sameLinks : ∀ other ∈ chain, (links.unlink item).SameAt links other := by
      intro other inChain
      refine ownSegment.unlink_sameAt fun inOwn => here ?_
      exact ((listed other).mp inChain).2.symm.trans ((ownListed other).mp inOwn).2
    refine ⟨chain, last, segment.sameAt sameLinks, distinct, counted, fun other => ?_⟩
    rw [listed other, others other]
    constructor
    · rintro ⟨isOther, isBucket⟩
      refine ⟨⟨isOther, ?_⟩, isBucket⟩
      rintro rfl
      exact here isBucket.symm
    · rintro ⟨⟨isOther, -⟩, isBucket⟩
      exact ⟨isOther, isBucket⟩

end Buckets

section Find

variable {ν : Type} {heap : HashHeap ν} {key : List UInt8} {chain : List Nat}
  {before head last item fuel : Nat}

/-- Items at different addresses are fewer than the addresses. -/
theorem length_lt_of_addresses {items : List Nat} {bound : Nat} (distinct : items.Nodup)
    (notNull : ∀ item ∈ items, item ≠ 0) (below : ∀ item ∈ items, item < bound) :
    items.length < bound ∨ items = [] := by
  cases items with
  | nil => exact Or.inr rfl
  | cons first rest =>
      left
      have nullApart : 0 ∉ first :: rest := fun listed => notNull 0 listed rfl
      have inRange : 0 :: first :: rest ⊆ List.range bound := by
        intro item listed
        rw [List.mem_range]
        rcases List.mem_cons.mp listed with isNull | listed
        · have firstBelow := below first (by simp)
          omega
        · exact below item listed
      have fits :=
        (List.subperm_of_subset (List.nodup_cons.mpr ⟨nullApart, distinct⟩) inRange).length_le
      rw [List.length_range, List.length_cons] at fits
      omega

/-- `HASH_FIND_IN_BKT` finds the item of a chain that has the key. -/
theorem hashFindInBkt_found (segment : heap.bkt.Segment before head chain last 0)
    (enough : chain.length < fuel) (listed : item ∈ chain) (isKey : heap.key item = key)
    (unique : ∀ other ∈ chain, heap.key other = key → other = item) :
    hashFindInBkt heap key fuel head = .ok item := by
  induction chain generalizing before head fuel with
  | nil => cases listed
  | cons first rest inductionHypothesis =>
      obtain ⟨isHead, notNull, -, segment⟩ := segment
      subst isHead
      cases fuel with
      | zero => exact (Nat.not_lt_zero _ enough).elim
      | succ fuel =>
          rw [hashFindInBkt, if_neg notNull]
          by_cases here : heap.key head = key
          · rw [if_pos here, unique head (by simp) here]
          · rw [if_neg here]
            have inRest : item ∈ rest := by
              rcases List.mem_cons.mp listed with isFirst | inRest
              · rw [isFirst] at isKey
                exact (here isKey).elim
              · exact inRest
            exact inductionHypothesis segment (Nat.lt_of_succ_lt_succ enough) inRest
              fun other inRest => unique other (List.mem_cons_of_mem _ inRest)

/-- `HASH_FIND_IN_BKT` finds nothing when no item of the chain has the key. -/
theorem hashFindInBkt_absent (segment : heap.bkt.Segment before head chain last 0)
    (enough : chain.length < fuel) (absent : ∀ other ∈ chain, heap.key other ≠ key) :
    hashFindInBkt heap key fuel head = .ok 0 := by
  induction chain generalizing before head fuel with
  | nil =>
      cases fuel with
      | zero => exact (Nat.not_lt_zero _ enough).elim
      | succ fuel => rw [hashFindInBkt, if_pos segment.1]
  | cons first rest inductionHypothesis =>
      obtain ⟨isHead, notNull, -, segment⟩ := segment
      subst isHead
      cases fuel with
      | zero => exact (Nat.not_lt_zero _ enough).elim
      | succ fuel =>
          rw [hashFindInBkt, if_neg notNull, if_neg (absent head (by simp))]
          exact inductionHypothesis segment (Nat.lt_of_succ_lt_succ enough)
            fun other inRest => absent other (List.mem_cons_of_mem _ inRest)

end Find

section Expand

variable {links : Links} {hashv : Nat → UInt32} {num newNum ideal : UInt32}
  {buckets : Nat → UtHashBucket} {items moved chain : List Nat} {state : Expansion}
  {before head last item fuel : Nat}

/-- What an expansion has done when it has moved some items. -/
structure ExpansionHolds (links : Links) (hashv : Nat → UInt32) (newNum : UInt32)
    (moved : List Nat) (state : Expansion) : Prop where
  hold : BucketsHold state.links hashv newNum state.newBuckets moved
  others : ∀ item, item ∉ moved → state.links.SameAt links item

/-- One item moves. -/
theorem ExpansionHolds.moveItem (holds : ExpansionHolds links hashv newNum moved state)
    (positive : 0 < newNum.toNat) (divides : ideal ≠ 0) (notNull : item ≠ 0)
    (fresh : item ∉ moved) :
    ∃ next, hashExpandItem hashv newNum ideal state item = .ok next ∧
      ExpansionHolds links hashv newNum (moved ++ [item]) next := by
  have others : ∀ other, other ∉ moved ++ [item] →
      (state.links.pushFront
        (state.newBuckets (hashToBkt (hashv item) newNum)).hhHead item).SameAt
          links other := by
    intro other notListed
    obtain ⟨sameNext, samePrev⟩ := holds.hold.push_sameAt positive notListed
    have before := holds.others other fun isMoved =>
      notListed (List.mem_append_left _ isMoved)
    exact ⟨sameNext.trans before.1, samePrev.trans before.2⟩
  have pushed := fun expandMult => holds.hold.push positive notNull fresh expandMult
  simp only [hashExpandItem, if_neg divides]
  split
  next => exact ⟨_, rfl, pushed _, others⟩
  next => exact ⟨_, rfl, pushed _, others⟩

/-- The items of one bucket move. -/
theorem ExpansionHolds.moveChain (holds : ExpansionHolds links hashv newNum moved state)
    (positive : 0 < newNum.toNat) (divides : ideal ≠ 0)
    (segment : links.Segment before head chain last 0) (enough : chain.length < fuel)
    (distinct : chain.Nodup) (fresh : ∀ item ∈ chain, item ∉ moved) :
    ∃ next, hashExpandChain hashv newNum ideal fuel head state = .ok next ∧
      ExpansionHolds links hashv newNum (moved ++ chain) next := by
  induction chain generalizing before head fuel moved state with
  | nil =>
      cases fuel with
      | zero => exact (Nat.not_lt_zero _ enough).elim
      | succ fuel =>
          rw [hashExpandChain, if_pos segment.1, List.append_nil]
          exact ⟨state, rfl, holds⟩
  | cons first rest inductionHypothesis =>
      obtain ⟨isHead, notNull, -, segment⟩ := segment
      subst isHead
      cases fuel with
      | zero => exact (Nat.not_lt_zero _ enough).elim
      | succ fuel =>
          obtain ⟨notInRest, distinctRest⟩ := List.nodup_cons.mp distinct
          obtain ⟨middle, moves, holdsMiddle⟩ :=
            holds.moveItem positive divides notNull (fresh head (by simp))
          have nextLink : state.links.next head = links.next head :=
            (holds.others head (fresh head (by simp))).1
          obtain ⟨final, rests, holdsFinal⟩ := inductionHypothesis holdsMiddle segment
            (Nat.lt_of_succ_lt_succ enough) distinctRest (by
              intro item inRest
              simp only [List.mem_append, List.mem_singleton, not_or]
              refine ⟨fresh item (List.mem_cons_of_mem _ inRest), ?_⟩
              rintro rfl
              exact notInRest inRest)
          refine ⟨final, ?_, ?_⟩
          · rw [hashExpandChain, if_neg notNull, nextLink, moves]
            exact rests
          · rw [List.append_assoc, List.singleton_append] at holdsFinal
            exact holdsFinal

/-- The items of all buckets move. -/
theorem ExpansionHolds.moveBuckets (hold : BucketsHold links hashv num buckets items)
    (below : ∀ item ∈ items, item < addressBound)
    (positive : 0 < newNum.toNat) (divides : ideal ≠ 0) {indices : List Nat}
    (inRange : ∀ i ∈ indices, i < num.toNat) (distinct : indices.Nodup)
    (holds : ExpansionHolds links hashv newNum moved state)
    (fresh : ∀ item ∈ moved, item ∈ items ∧ hashToBkt (hashv item) num ∉ indices) :
    ∃ next all, indices.foldlM
        (fun state i => hashExpandChain hashv newNum ideal addressBound (buckets i).hhHead
          state) state = .ok next ∧
      ExpansionHolds links hashv newNum all next ∧
        ∀ item, item ∈ all ↔
          item ∈ moved ∨ (item ∈ items ∧ hashToBkt (hashv item) num ∈ indices) := by
  induction indices generalizing moved state with
  | nil => exact ⟨state, moved, rfl, holds, by simp⟩
  | cons i rest inductionHypothesis =>
      obtain ⟨notInRest, distinctRest⟩ := List.nodup_cons.mp distinct
      obtain ⟨chain, last, segment, distinctChain, -, listed⟩ := hold i (inRange i (by simp))
      have enough : chain.length < addressBound := by
        rcases length_lt_of_addresses distinctChain (fun item => segment.ne_zero)
            (fun item inChain => below item ((listed item).mp inChain).1) with fits | empty
        · exact fits
        · rw [empty]
          exact Nat.two_pow_pos 64
      obtain ⟨middle, moves, holdsMiddle⟩ := holds.moveChain positive divides segment enough
        distinctChain (by
          intro item inChain isMoved
          refine (fresh item isMoved).2 ?_
          rw [((listed item).mp inChain).2]
          exact List.mem_cons_self ..)
      obtain ⟨final, all, rests, holdsFinal, inAll⟩ := inductionHypothesis
        (fun j inRest => inRange j (List.mem_cons_of_mem _ inRest)) distinctRest holdsMiddle
        (by
          intro item isMoved
          rcases List.mem_append.mp isMoved with before | inChain
          · obtain ⟨isItem, notListed⟩ := fresh item before
            exact ⟨isItem, fun inRest => notListed (List.mem_cons_of_mem _ inRest)⟩
          · obtain ⟨isItem, isBucket⟩ := (listed item).mp inChain
            rw [isBucket]
            exact ⟨isItem, notInRest⟩)
      refine ⟨final, all, ?_, holdsFinal, fun item => ?_⟩
      · rw [List.foldlM_cons, moves]
        exact rests
      · rw [inAll item, List.mem_append, listed item, List.mem_cons]
        constructor
        · rintro ((isMoved | ⟨isItem, isBucket⟩) | ⟨isItem, inRest⟩)
          · exact Or.inl isMoved
          · exact Or.inr ⟨isItem, Or.inl isBucket⟩
          · exact Or.inr ⟨isItem, Or.inr inRest⟩
        · rintro (isMoved | ⟨isItem, isBucket | inRest⟩)
          · exact Or.inl (Or.inl isMoved)
          · exact Or.inl (Or.inr ⟨isItem, isBucket⟩)
          · exact Or.inr ⟨isItem, inRest⟩

end Expand

end Mcfi
