import Mcfi.JitVerifier

namespace Mcfi

/-!
# The longest match of the verifier

`verify` stores every accepting state that it comes to, but the byte of look-ahead
behind such a state is only followed, never tested: a match that ends there is
passed by.  Of matches whose lengths follow each other it stores every other one.
-/

section Prefixes

variable (v : Verifier) (start : UInt16) (bytes : List UInt8)

/-- The state of the automaton after the first bytes of a range. -/
def stateAfter (count : Nat) : UInt16 :=
  dfaRun v start (bytes.take count)

/--
A non-empty prefix that ends in an accepting state, with neither the dead state
nor a state that ends a match before.
-/
structure AcceptedPrefix (count : Nat) : Prop where
  nonempty : 0 < count
  inside : count ≤ bytes.length
  accepted : accepting v (stateAfter v start bytes count) = true
  live : ∀ before, 0 < before → before < count →
    stateAfter v start bytes before ≠ 0 ∧
      acceptsOthers v (stateAfter v start bytes before) = false

/-- The longest accepted prefix. -/
structure LongestPrefix (count : Nat) : Prop where
  isAccepted : AcceptedPrefix v start bytes count
  longest : ∀ other, AcceptedPrefix v start bytes other → other ≤ count

/-- An accepting state below the start state, where the others go on. -/
def settles (state : UInt16) : Bool :=
  !decide (v.start ≤ state) && accepting v state

/-- How many prefixes in a row, up to a length, end in an accepting state. -/
def streak : Nat → Nat
  | 0 => 0
  | count + 1 =>
      if settles v (stateAfter v start bytes (count + 1)) then streak count + 1
      else 0

/-- A result of `verify` that begins at a position is the longest match. -/
structure IsLongestMatch (position : Nat)
    (result : Int × Option (UInt16 × Nat)) : Prop where
  found : result.1 = 0 → ∃ count, LongestPrefix v start bytes count ∧
    result.2 = some (stateAfter v start bytes count, position + count)
  refused : result.1 ≠ 0 ↔ ¬ ∃ count, AcceptedPrefix v start bytes count

end Prefixes

section Steps

variable {v : Verifier} {start : UInt16} {byte : UInt8} {rest : List UInt8}

theorem stateAfter_cons (count : Nat) :
    stateAfter v start (byte :: rest) (count + 1) =
      stateAfter v (dfaLookup v start byte) rest count :=
  rfl

/-- An accepting state is not dead, and ends a match if it is no plain one. -/
theorem accepts_cases {state : UInt16} (plain : accepts v state = true) :
    state ≠ 0 ∧ acceptsOthers v state = false := by
  simp only [accepts, Bool.and_eq_true, decide_eq_true_eq] at plain
  constructor
  · rintro rfl
    exact absurd plain.2 (by decide)
  · simp only [acceptsOthers, Bool.and_eq_false_iff, decide_eq_false_iff_not]
    exact Or.inl (UInt16.not_lt.mpr plain.1)

/-- A state from the start state on is live. -/
theorem live_of_running {state : UInt16} (positive : 0 < v.start)
    (running : v.start ≤ state) :
    state ≠ 0 ∧ acceptsOthers v state = false := by
  constructor
  · rintro rfl
    exact absurd positive (UInt16.not_lt.mpr running)
  · simp only [acceptsOthers, Bool.and_eq_false_iff, decide_eq_false_iff_not]
    exact Or.inr (UInt16.not_lt.mpr running)

/-- A state that neither goes on nor accepts is dead. -/
theorem dead_of_refused
    {state : UInt16} (stopped : ¬ v.start ≤ state)
    (notPlain : ¬ accepts v state = true)
    (notSpecial : ¬ acceptsOthers v state = true) : state = 0 := by
  simp only [accepts, acceptsOthers, Bool.and_eq_true, decide_eq_true_eq,
    not_and] at notPlain notSpecial
  by_contra alive
  have positive : 0 < state := by
    rw [UInt16.lt_iff_toNat_lt]
    exact Nat.pos_of_ne_zero fun zero => alive (UInt16.toNat_inj.mp zero)
  have above : v.maxAccept < state :=
    UInt16.not_le.mp fun below => notPlain below positive
  exact notSpecial above (UInt16.not_le.mp stopped)

theorem accepting_zero : accepting v 0 = false := by
  have notBelow : ¬ v.maxAccept < 0 := by
    rw [UInt16.lt_iff_toNat_lt]
    exact Nat.not_lt_zero _
  simp [accepting, accepts, acceptsOthers, notBelow]

/-- The prefix of one byte. -/
theorem acceptedPrefix_one :
    AcceptedPrefix v start (byte :: rest) 1 ↔
      accepting v (dfaLookup v start byte) = true := by
  constructor
  · exact fun accepted => accepted.accepted
  · intro accepted
    exact ⟨Nat.one_pos, by simp, accepted, fun before low high => by omega⟩

/-- A longer prefix is one of the rest, behind a state that is live. -/
theorem acceptedPrefix_cons {count : Nat} :
    AcceptedPrefix v start (byte :: rest) (count + 2) ↔
      (dfaLookup v start byte ≠ 0 ∧
        acceptsOthers v (dfaLookup v start byte) = false) ∧
      AcceptedPrefix v (dfaLookup v start byte) rest (count + 1) := by
  constructor
  · intro accepted
    refine ⟨accepted.live 1 Nat.one_pos (by omega), Nat.succ_pos _, ?_,
      accepted.accepted, fun before low high => ?_⟩
    · have inside := accepted.inside
      rw [List.length_cons] at inside
      omega
    · exact accepted.live (before + 1) (Nat.succ_pos _) (by omega)
  · rintro ⟨live, accepted⟩
    refine ⟨Nat.succ_pos _, ?_, accepted.accepted, fun before low high => ?_⟩
    · have inside := accepted.inside
      rw [List.length_cons]
      omega
    · obtain ⟨earlier, rfl⟩ := Nat.exists_eq_succ_of_ne_zero (by omega : before ≠ 0)
      cases earlier with
      | zero => exact live
      | succ earlier => exact accepted.live (earlier + 1) (Nat.succ_pos _) (by omega)

/-- The longest prefix of the rest, when it is longer than one byte. -/
theorem LongestPrefix.tail {count : Nat}
    (longest : LongestPrefix v start (byte :: rest) (count + 2)) :
    LongestPrefix v (dfaLookup v start byte) rest (count + 1) := by
  obtain ⟨live, accepted⟩ := acceptedPrefix_cons.mp longest.isAccepted
  refine ⟨accepted, fun other isAccepted => ?_⟩
  obtain ⟨shorter, rfl⟩ :=
    Nat.exists_eq_succ_of_ne_zero (Nat.ne_of_gt isAccepted.nonempty)
  have bound := longest.longest (shorter + 2)
    (acceptedPrefix_cons.mpr ⟨live, isAccepted⟩)
  omega

/-- Where some prefix is accepted, one is the longest. -/
theorem exists_longestPrefix {bytes : List UInt8}
    (some : ∃ count, AcceptedPrefix v start bytes count) :
    ∃ count, LongestPrefix v start bytes count := by
  classical
  obtain ⟨first, accepted⟩ := some
  refine ⟨Nat.findGreatest (AcceptedPrefix v start bytes) bytes.length,
    Nat.findGreatest_spec accepted.inside accepted, fun other isAccepted => ?_⟩
  exact Nat.le_findGreatest isAccepted.inside isAccepted

theorem LongestPrefix.unique {bytes : List UInt8} {first second : Nat}
    (left : LongestPrefix v start bytes first)
    (right : LongestPrefix v start bytes second) : first = second :=
  Nat.le_antisymm (right.longest _ left.isAccepted)
    (left.longest _ right.isAccepted)

theorem streak_succ (bytes : List UInt8) (count : Nat) :
    streak v start bytes (count + 1) =
      if settles v (stateAfter v start bytes (count + 1)) then
        streak v start bytes count + 1
      else 0 :=
  rfl

/-- A first state that goes on begins no streak. -/
theorem streak_running (running : v.start ≤ dfaLookup v start byte) (count : Nat) :
    streak v start (byte :: rest) (count + 1) =
      streak v (dfaLookup v start byte) rest count := by
  induction count with
  | zero => simp [streak, stateAfter, dfaRun, settles, running]
  | succ count inductionHypothesis =>
      rw [streak_succ, inductionHypothesis, stateAfter_cons, streak_succ]

theorem settles_of_plain {state : UInt16} (stopped : ¬ v.start ≤ state)
    (plain : accepts v state = true) : settles v state = true := by
  simp [settles, accepting, stopped, plain]

theorem settles_of_special {state : UInt16} (stopped : ¬ v.start ≤ state)
    (special : acceptsOthers v state = true) : settles v state = true := by
  simp [settles, accepting, stopped, special]

/-- An accepting first state is a streak of its own. -/
theorem streak_settled (settled : settles v (dfaLookup v start byte) = true) :
    streak v start (byte :: rest) 1 % 2 = 1 := by
  have one : streak v start (byte :: rest) 1 = 1 := if_pos settled
  rw [one]

/-- Behind an accepting state and a byte of look-ahead the parity begins anew. -/
theorem streak_lookahead {next : UInt8} {later : List UInt8}
    (settled : settles v (dfaLookup v start byte) = true) (count : Nat) :
    streak v start (byte :: next :: later) (count + 2) % 2 =
      streak v (dfaLookup v (dfaLookup v start byte) next) later count % 2 := by
  induction count with
  | zero =>
      have one : streak v start (byte :: next :: later) 1 = 1 := if_pos settled
      rw [streak_succ, one, streak]
      split <;> rfl
  | succ count inductionHypothesis =>
      rw [streak_succ, streak_succ _ count, stateAfter_cons, stateAfter_cons]
      split
      next => omega
      next => rfl

end Steps

section Matches

variable {v : Verifier}

/-- `verify` never takes a match back. -/
private theorem verify_keeps
    {start : UInt16} {position : Nat} {found : Option (UInt16 × Nat)}
    {bytes : List UInt8} (known : found ≠ none) :
    (verify v start position found bytes).2 ≠ none := by
  fun_induction verify with
  | case1 => exact known
  | case2 _ _ _ _ _ _ _ inductionHypothesis => exact inductionHypothesis known
  | case3 => exact Option.some_ne_none _
  | case4 _ _ _ _ _ _ _ _ _ _ _ inductionHypothesis =>
      exact inductionHypothesis (Option.some_ne_none _)
  | case5 => exact Option.some_ne_none _
  | case6 => exact Option.some_ne_none _
  | case7 => exact known

/-- `verify` returns zero exactly when it stores a match. -/
theorem verify_code
    (start : UInt16) (position : Nat) (found : Option (UInt16 × Nat))
    (bytes : List UInt8) :
    ((verify v start position found bytes).1 = 0 →
      (verify v start position found bytes).2 ≠ none) ∧
    ((verify v start position found bytes).1 ≠ 0 →
      (verify v start position found bytes).2 = found) := by
  fun_induction verify with
  | case1 => exact ⟨fun zero => absurd zero (by decide : (1 : Int) ≠ 0), fun _ => rfl⟩
  | case2 _ _ _ _ _ _ _ inductionHypothesis => exact inductionHypothesis
  | case3 => exact ⟨fun _ => Option.some_ne_none _, fun nonzero => absurd rfl nonzero⟩
  | case4 =>
      exact ⟨fun _ => verify_keeps (Option.some_ne_none _),
        fun nonzero => absurd rfl nonzero⟩
  | case5 => exact ⟨fun _ => Option.some_ne_none _, fun nonzero => absurd rfl nonzero⟩
  | case6 => exact ⟨fun _ => Option.some_ne_none _, fun nonzero => absurd rfl nonzero⟩
  | case7 => exact ⟨fun zero => absurd zero (by decide : (-1 : Int) ≠ 0), fun _ => rfl⟩

/-- A match is stored only where some prefix is accepted. -/
theorem accepted_of_verify
    {start : UInt16} {position : Nat} {found : Option (UInt16 × Nat)}
    {bytes : List UInt8}
    (changed : (verify v start position found bytes).2 ≠ found) :
    0 < v.start ∧ ∃ count, AcceptedPrefix v start bytes count := by
  have here : ∀ (old : UInt16) (byte : UInt8) (rest : List UInt8),
      ¬ v.start ≤ dfaLookup v old byte →
      accepting v (dfaLookup v old byte) = true →
        0 < v.start ∧ ∃ count, AcceptedPrefix v old (byte :: rest) count := by
    intro old byte rest stopped accepted
    refine ⟨?_, 1, acceptedPrefix_one.mpr accepted⟩
    have below := UInt16.lt_iff_toNat_lt.mp (UInt16.not_le.mp stopped)
    exact UInt16.lt_iff_toNat_lt.mpr (Nat.zero_lt_of_lt below)
  fun_induction verify with
  | case1 => exact absurd rfl changed
  | case2 old place found byte rest next running inductionHypothesis =>
      obtain ⟨positive, count, accepted⟩ := inductionHypothesis changed
      obtain ⟨shorter, rfl⟩ :=
        Nat.exists_eq_succ_of_ne_zero (Nat.ne_of_gt accepted.nonempty)
      exact ⟨positive, shorter + 2,
        acceptedPrefix_cons.mpr ⟨live_of_running positive running, accepted⟩⟩
  | case3 old place found byte next stopped plain =>
      exact here old byte _ stopped (Bool.or_eq_true_iff.mpr (Or.inl plain))
  | case4 old place found byte next stopped plain =>
      exact here old byte _ stopped (Bool.or_eq_true_iff.mpr (Or.inl plain))
  | case5 old place found byte next stopped plain =>
      exact here old byte _ stopped (Bool.or_eq_true_iff.mpr (Or.inl plain))
  | case6 old place found byte rest next stopped notPlain special =>
      exact here old byte _ stopped (Bool.or_eq_true_iff.mpr (Or.inr special))
  | case7 => exact absurd rfl changed

/-- A stored match of the rest is no longer than what was stored before. -/
private theorem verify_not_stored
    {start last : UInt16} {position stop : Nat}
    {found : Option (UInt16 × Nat)} {bytes : List UInt8}
    (notFound : found ≠ some (last, stop)) (early : stop ≤ position) :
    (verify v start position found bytes).2 ≠ some (last, stop) := by
  intro stored
  rcases verify_stores stored with before | ⟨later, _⟩
  · exact notFound before
  · omega

/--
`verify` stores the longest prefix exactly when the streak that ends with it has
an odd length.
-/
theorem verify_longest
    {start : UInt16} {position : Nat} {found : Option (UInt16 × Nat)}
    {bytes : List UInt8} {count : Nat}
    (longest : LongestPrefix v start bytes count)
    (behind : ∀ last stop, found = some (last, stop) → stop ≤ position) :
    (verify v start position found bytes).2 =
        some (stateAfter v start bytes count, position + count) ↔
      streak v start bytes count % 2 = 1 := by
  fun_induction verify generalizing count with
  | case1 =>
      have inside := longest.isAccepted.inside
      have nonempty := longest.isAccepted.nonempty
      simp only [List.length_nil] at inside
      omega
  | case2 old place found byte rest next running =>
      rename_i inductionHypothesis
      rcases count with _ | _ | count
      · exact absurd longest.isAccepted.nonempty (lt_irrefl 0)
      · rw [streak_running running, streak]
        refine iff_of_false (verify_not_stored (fun same => ?_) (le_refl _))
          (by decide)
        exact absurd (behind _ _ same) (by omega)
      · rw [stateAfter_cons, streak_running running,
          ← inductionHypothesis longest.tail fun last stop same =>
            Nat.le_succ_of_le (behind last stop same),
          Nat.add_assoc place 1, Nat.add_comm 1 (count + 1)]
  | case3 old place found byte next stopped =>
      rename_i plain
      have inside := longest.isAccepted.inside
      have nonempty := longest.isAccepted.nonempty
      simp only [List.length_singleton] at inside
      obtain rfl : count = 1 := by omega
      exact iff_of_true rfl (streak_settled (settles_of_plain stopped plain))
  | case4 old place found byte next stopped plain second later ahead alive =>
      rename_i inductionHypothesis
      have settled := settles_of_plain stopped plain
      rcases count with _ | _ | _ | count
      · exact absurd longest.isAccepted.nonempty (lt_irrefl 0)
      · -- nothing is accepted behind, so what is stored here stays
        refine iff_of_true ?_ (streak_settled settled)
        by_contra changed
        obtain ⟨_, shorter, accepted⟩ := accepted_of_verify changed
        obtain ⟨rest, rfl⟩ :=
          Nat.exists_eq_succ_of_ne_zero (Nat.ne_of_gt accepted.nonempty)
        by_cases special : acceptsOthers v ahead = true
        · have two : AcceptedPrefix v old (byte :: second :: later) 2 :=
            acceptedPrefix_cons.mpr ⟨accepts_cases plain, acceptedPrefix_one.mpr
              (Bool.or_eq_true_iff.mpr (Or.inr special))⟩
          exact absurd (longest.longest 2 two) (by decide)
        · have nonzero : ahead ≠ 0 := by
            simpa using (Bool.and_eq_true_iff.mp alive).2
          have longer := longest.longest (rest + 3)
            (acceptedPrefix_cons.mpr ⟨accepts_cases plain, acceptedPrefix_cons.mpr
              ⟨⟨nonzero, Bool.eq_false_iff.mpr special⟩, accepted⟩⟩)
          omega
      · rw [streak_lookahead settled, streak]
        refine iff_of_false (verify_not_stored (fun same => ?_) (le_refl _))
          (by decide)
        have shorter := congrArg Prod.snd (Option.some.inj same)
        simp only at shorter
        omega
      · rw [streak_lookahead settled, stateAfter_cons, stateAfter_cons,
          ← inductionHypothesis longest.tail.tail fun last stop same => ?_,
          Nat.add_assoc place 2, Nat.add_comm 2 (count + 1)]
        cases same
        omega
  | case5 old place found byte next stopped plain second later ahead =>
      rename_i ends
      have settled := settles_of_plain stopped plain
      rcases count with _ | _ | _ | count
      · exact absurd longest.isAccepted.nonempty (lt_irrefl 0)
      · exact iff_of_true rfl (streak_settled settled)
      · rw [streak_lookahead settled, streak]
        refine iff_of_false (fun same => ?_) (by decide)
        have shorter := congrArg Prod.snd (Option.some.inj same)
        simp only at shorter
        omega
      · -- a third byte would come behind the dead state
        have accepted := (acceptedPrefix_cons.mp longest.isAccepted).2
        have alive := (acceptedPrefix_cons.mp accepted).1.1
        have inside := accepted.inside
        have nonempty : later.isEmpty = false := by
          cases later with
          | nil => simp at inside
          | cons => rfl
        simp only [nonempty, Bool.not_false, Bool.true_and, bne_iff_ne, ne_eq,
          not_not] at ends
        exact absurd ends alive
  | case6 old place found byte rest next stopped notPlain =>
      rename_i special
      rcases count with _ | _ | count
      · exact absurd longest.isAccepted.nonempty (lt_irrefl 0)
      · exact iff_of_true rfl (streak_settled (settles_of_special stopped special))
      · have live := (acceptedPrefix_cons.mp longest.isAccepted).1.2
        exact absurd (live.symm.trans special) (by decide)
  | case7 old place found byte rest next stopped notPlain =>
      rename_i notSpecial
      have dead := dead_of_refused stopped notPlain notSpecial
      rcases count with _ | _ | count
      · exact absurd longest.isAccepted.nonempty (lt_irrefl 0)
      · have accepted := acceptedPrefix_one.mp longest.isAccepted
        rw [show dfaLookup v old byte = 0 from dead, accepting_zero] at accepted
        exact absurd accepted (by decide)
      · exact absurd dead (acceptedPrefix_cons.mp longest.isAccepted).1.1

/--
`verify` finds the longest match exactly when the accepted prefixes whose lengths
lead up to that of the longest one in steps of one are of an odd number.
-/
theorem verify_longest_iff
    (v : Verifier) (start : UInt16) (position : Nat) (bytes : List UInt8) :
    IsLongestMatch v start bytes position (verify v start position none bytes) ↔
      ∀ count, LongestPrefix v start bytes count →
        streak v start bytes count % 2 = 1 := by
  have stores : ∀ count, LongestPrefix v start bytes count →
      ((verify v start position none bytes).2 =
          some (stateAfter v start bytes count, position + count) ↔
        streak v start bytes count % 2 = 1) :=
    fun count longest => verify_longest longest fun _ _ never => nomatch never
  have code := verify_code start position none bytes (v := v)
  constructor
  · intro isMatch count longest
    have zero : (verify v start position none bytes).1 = 0 := by
      by_contra refused
      exact isMatch.refused.mp refused ⟨count, longest.isAccepted⟩
    obtain ⟨other, otherLongest, stored⟩ := isMatch.found zero
    rw [otherLongest.unique longest] at stored
    exact (stores count longest).mp stored
  · intro odd
    refine ⟨fun zero => ?_, fun nonzero some => ?_, fun refused => ?_⟩
    · obtain ⟨_, accepted⟩ := accepted_of_verify (code.1 zero)
      obtain ⟨count, longest⟩ := exists_longestPrefix accepted
      exact ⟨count, longest, (stores count longest).mpr (odd count longest)⟩
    · obtain ⟨count, longest⟩ := exists_longestPrefix some
      have stored := (stores count longest).mpr (odd count longest)
      rw [code.2 nonzero] at stored
      cases stored
    · intro zero
      exact refused (accepted_of_verify (code.1 zero)).2

/-- An automaton that accepts every run of one-byte instructions. -/
def runVerifier : Verifier :=
  spreadVerifier fun index =>
    if index = 13 * 256 + 0x90 ∨ index = 1 * 256 + 0x90 then 1 else 0

/-- Of two such instructions `verify` takes the first. -/
theorem longest_match_missed :
    ¬ ∀ v start position bytes,
      IsLongestMatch v start bytes position (verify v start position none bytes) := by
  intro isMatch
  have two : AcceptedPrefix runVerifier 13 [0x90, 0x90] 2 :=
    acceptedPrefix_cons.mpr ⟨by decide, acceptedPrefix_one.mpr (by decide)⟩
  obtain ⟨count, longest, stored⟩ :=
    (isMatch runVerifier 13 0 [0x90, 0x90]).found (by decide)
  have found : (verify runVerifier 13 0 none [0x90, 0x90]).2 = some (1, 1) := by decide
  have atOne := congrArg Prod.snd (Option.some.inj (found.symm.trans stored))
  have atTwo := longest.longest 2 two
  simp only at atOne
  omega

end Matches

end Mcfi
