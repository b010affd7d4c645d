import Mcfi.Generation

namespace Mcfi

/-!
# The window in which versions do not repeat

Each generation stamps its words with the next half id of `version`.  The comment
above `VERSION_SPACE_MAX` derives its value from two excluded bytes a field; the
encoder excludes three, so versions repeat earlier than the bound admits.
-/

/-- The version words of a number of successive generations. -/
def versionWords (version : Nat) : Nat → List Nat
  | 0 => []
  | updates + 1 =>
      (convertToMcfiHalfIdFormat version).1 ::
        versionWords (convertToMcfiHalfIdFormat version).2 updates

/-- The version words are the encoder's successive half ids. -/
theorem versionWords_eq (version updates : Nat) :
    versionWords version updates =
      (List.range updates).map (halfIdAt version) := by
  induction updates generalizing version with
  | zero => rfl
  | succ updates inductionHypothesis =>
      rw [versionWords, inductionHypothesis, List.range_succ_eq_map,
        List.map_cons, List.map_map]
      congr 1
      apply List.map_congr_left
      intro call _
      exact (halfIdAt_succ_front version call).symm

/-- Successive generations, with the version word each one stamps. -/
inductive GenCfgRun : Runtime → List Nat → Runtime → Prop where
  | done (runtime : Runtime) : GenCfgRun runtime [] runtime
  | next
      {attrs : UInt8} {runtime middle final : Runtime} {words : List Nat}
      (generated : genCfg attrs runtime = .ok middle)
      (rest : GenCfgRun middle words final) :
      GenCfgRun runtime
        ((convertToMcfiHalfIdFormat runtime.version).1 :: words) final

/-- The words that a run of generations stamps are the version words. -/
theorem GenCfgRun.words_eq
    {runtime final : Runtime} {words : List Nat}
    (run : GenCfgRun runtime words final) :
    words = versionWords runtime.version words.length := by
  induction run with
  | done runtime => rfl
  | @next attrs runtime middle final words generated rest
      inductionHypothesis =>
      obtain ⟨cfg, cfgRuns, result⟩ := genCfg_result generated
      obtain ⟨facts⟩ := computeCfg_facts cfgRuns
      have advanced : middle.version =
          (convertToMcfiHalfIdFormat runtime.version).2 := by
        rw [result.versionIs, facts.assignment.versionIs]
      rw [advanced] at inductionHypothesis
      rw [List.length_cons, versionWords, ← inductionHypothesis]

/--
Two of the version words coincide exactly when the run is longer than the
encoder's period.
-/
theorem versionWords_nodup_iff (version updates : Nat) :
    (versionWords version updates).Nodup ↔ updates ≤ 125 ^ 4 := by
  rw [versionWords_eq]
  constructor
  · intro nodup
    by_contra long
    have first : (0 : Nat) ∈ List.range updates := by
      rw [List.mem_range]
      omega
    have wrapped : 125 ^ 4 ∈ List.range updates := by
      rw [List.mem_range]
      omega
    have repeats : halfIdAt version 0 = halfIdAt version (125 ^ 4) := by
      rw [halfIdAt_eq_iff]
      decide
    have same := List.inj_on_of_nodup_map nodup first wrapped repeats
    omega
  · intro short
    refine List.Nodup.map_on ?_ List.nodup_range
    intro first firstIn second secondIn same
    rw [List.mem_range] at firstIn secondIn
    rw [halfIdAt_eq_iff, Nat.mod_eq_of_lt (by omega),
      Nat.mod_eq_of_lt (by omega)] at same
    exact same

/--
The encoder terminates on every number; the words of consecutive updates are
pairwise distinct exactly when there are at most `125^4` of them; and they are
the words that consecutive generations stamp.
-/
theorem versions_distinct_iff (version updates : Nat) :
    (∀ number, ∃ passes,
      HalfIdRun number passes (convertToMcfiHalfIdFormat number)) ∧
    ((versionWords version updates).Nodup ↔ updates ≤ 125 ^ 4) ∧
    ∀ runtime words final, GenCfgRun runtime words final →
      runtime.version = version → words.length = updates →
        words = versionWords version updates := by
  refine ⟨halfIdRun_convert, versionWords_nodup_iff version updates, ?_⟩
  rintro runtime words final run rfl rfl
  exact run.words_eq

/-- One generation of the empty process stamps one version. -/
theorem versions_distinct_boot :
    ∃ final, GenCfgRun Runtime.boot
        [(convertToMcfiHalfIdFormat Runtime.boot.version).1] final ∧
      [(convertToMcfiHalfIdFormat Runtime.boot.version).1] =
        versionWords Runtime.boot.version 1 := by
  have returned : (genCfg 0 Runtime.boot).toOption.isSome = true := by
    decide +kernel
  cases generated : genCfg 0 Runtime.boot with
  | error fault =>
      simp [generated, Except.toOption] at returned
  | ok final =>
      have run := GenCfgRun.next generated (.done final)
      exact ⟨final, run,
        (versions_distinct_iff _ _).2.2 _ _ _ run rfl rfl⟩

/-- From the first version on, a run inside the announced window repeats one. -/
theorem version_repeats_in_window :
    125 ^ 4 + 1 < versionSpaceMax ∧
      ¬ (versionWords Runtime.boot.version (125 ^ 4 + 1)).Nodup := by
  refine ⟨by decide, ?_⟩
  rw [versionWords_nodup_iff]
  omega

end Mcfi
