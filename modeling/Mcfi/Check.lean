import Mcfi.HalfId
import Mcfi.Lib.ByteMem

namespace Mcfi

open ByteMem

/-!
# The check before an indirect branch

The compiler puts a check in front of every indirect branch.  It loads the
branch's id and the target's id from the tables and compares them; a difference
in the version alone sends it back to the loads.
-/

/-- What one pass of a check decides. -/
inductive Verdict where
  | go
  | report
  | retry
  deriving Repr, DecidableEq

/-- `MCFIx64IDVersionCheck`: the low halves of the two words. -/
def idVersionCheck (bid tid : Nat) : Verdict :=
  if bid % 2 ^ 32 ≠ tid % 2 ^ 32 then .retry else .report

/-- `MCFIx64IDValidityCheck`: bit 0 of the target's word. -/
def idValidityCheck (bid tid : Nat) : Verdict :=
  if tid % 2 = 0 then .report else idVersionCheck bid tid

/-- `MCFIx64InteropCheck`: the lowest byte of the target's word. -/
def interopCheck (bid tid : Nat) : Verdict :=
  if tid % 256 = NPV then .go else idValidityCheck bid tid

/-- `MCFIx64IDCmp`: the two words. -/
def idCmp (bid tid : Nat) : Verdict :=
  if bid = tid then .go else interopCheck bid tid

/--
A check over a table that no one writes: it reads both words in each pass and
ends in the first pass that does not send it back.
-/
inductive CheckRun (table : ByteMem) (slot addr : Nat) : Verdict → Prop where
  | decided
      {verdict : Verdict}
      (decides : idCmp (table.load64 slot) (table.load64 addr) = verdict)
      (final : verdict ≠ .retry) :
      CheckRun table slot addr verdict
  | again
      {verdict : Verdict}
      (retries : idCmp (table.load64 slot) (table.load64 addr) = .retry)
      (rest : CheckRun table slot addr verdict) :
      CheckRun table slot addr verdict

/-- A check retries exactly for an active target of another version. -/
theorem idCmp_eq_retry {bid tid : Nat} :
    idCmp bid tid = .retry ↔ tid % 2 = 1 ∧ bid % 2 ^ 32 ≠ tid % 2 ^ 32 := by
  have marker : tid % 256 = NPV → tid % 2 = 0 := by
    unfold NPV
    omega
  unfold idCmp interopCheck idValidityCheck idVersionCheck
  constructor
  · intro verdict
    split at verdict
    next => cases verdict
    next =>
      split at verdict
      next => cases verdict
      next =>
        split at verdict
        next => cases verdict
        next active =>
          split at verdict
          next differ => exact ⟨by omega, differ⟩
          next => cases verdict
  · rintro ⟨active, differ⟩
    rw [if_neg (fun same => differ (by rw [same])),
      if_neg (fun isMarker => by have even := marker isMarker; omega),
      if_neg (by omega), if_pos differ]

/-- A check passes exactly on equal words and on native code. -/
theorem idCmp_eq_go {bid tid : Nat} :
    idCmp bid tid = .go ↔ bid = tid ∨ tid % 256 = NPV := by
  unfold idCmp interopCheck idValidityCheck idVersionCheck
  by_cases same : bid = tid
  · simp [same]
  · by_cases native : tid % 256 = NPV
    · simp [same, native]
    · simp only [same, native, if_false, or_self, iff_false]
      split
      next => exact Verdict.noConfusion
      next => split <;> exact Verdict.noConfusion

/-- A check reports an inactive target, and another id of its own version. -/
theorem idCmp_eq_report {bid tid : Nat} :
    idCmp bid tid = .report ↔ bid ≠ tid ∧ tid % 256 ≠ NPV ∧
      (tid % 2 = 0 ∨ bid % 2 ^ 32 = tid % 2 ^ 32) := by
  unfold idCmp interopCheck idValidityCheck idVersionCheck
  by_cases same : bid = tid
  · simp [same]
  · by_cases native : tid % 256 = NPV
    · simp [same, native]
    · by_cases inactive : tid % 2 = 0
      · simp [same, native, inactive]
      · simp [same, native, inactive]

/-- Where a branch stands in its check, with what it has loaded so far. -/
inductive CheckState where
  | loadBid
  | loadTid (bid : Nat)
  | idCmp (bid tid : Nat)
  | interopCheck (bid tid : Nat)
  | idValidityCheck (bid tid : Nat)
  | idVersionCheck (bid tid : Nat)
  | passed (bid tid : Nat)
  | reported (bid tid : Nat)
  deriving DecidableEq

/--
`MCFIx64MBBs`: the instructions of a check, one at a time.  Only the two loads
read the tables.
-/
def CheckState.step (table : ByteMem) (slot addr : Nat) :
    CheckState → CheckState
  | loadBid => loadTid (table.load64 slot)
  | loadTid bid => idCmp bid (table.load64 addr)
  | idCmp bid tid => if bid = tid then passed bid tid else interopCheck bid tid
  | interopCheck bid tid =>
      if tid % 256 = NPV then passed bid tid else idValidityCheck bid tid
  | idValidityCheck bid tid =>
      if tid % 2 = 0 then reported bid tid else idVersionCheck bid tid
  | idVersionCheck bid tid =>
      if bid % 2 ^ 32 ≠ tid % 2 ^ 32 then loadBid else reported bid tid
  | passed bid tid => passed bid tid
  | reported bid tid => reported bid tid

/-- A check over a table that no one writes ends when its first pass decides. -/
theorem checkRun_iff {table : ByteMem} {slot addr : Nat} :
    (∃ verdict, CheckRun table slot addr verdict) ↔
      idCmp (table.load64 slot) (table.load64 addr) ≠ .retry := by
  constructor
  · rintro ⟨verdict, run⟩
    induction run with
    | decided decides final => rwa [decides]
    | again retries rest inductionHypothesis => exact inductionHypothesis
  · intro decides
    exact ⟨_, .decided rfl decides⟩

end Mcfi
