import Mcfi.Lib.LinkMap

namespace Mcfi

/-!
# Failing runtime calls and the dictionaries of `kv.h`

The runtime never returns from a failed check: `assert` prints a line and quits
the process, and so do the explicit error paths.  A runtime function is modelled
as a computation that either returns or names what stopped the process.

A `keyvalue` hash table is an insertion-ordered dictionary: `HASH_ADD` appends to
the application order and `HASH_ITER` follows it.
-/

/-- What keeps a runtime call from returning. -/
inductive Fault where
  /-- `CHECK` failed in the named function. -/
  | check (function : String)
  /-- The function printed this message and called `quit`. -/
  | quit (message : String)
  /-- The function dereferenced a null pointer. -/
  | nullDeref (function : String)
  /-- The function accessed memory that is not mapped for it. -/
  | pageFault (function : String)
  /-- A loop did not finish within the bound its model gives it. -/
  | diverged (function : String)
  deriving Repr, DecidableEq

/-- A runtime call: a result, or the fault that stopped the process. -/
abbrev Rt := Except Fault

/-- `assert`, which the runtime defines as `CHECK`. -/
def check (function : String) (condition : Bool) : Rt Unit :=
  if condition then .ok () else .error (.check function)

/-- A sequence of two calls returns when both do. -/
theorem bind_eq_ok
    {α β : Type} {first : Rt α} {next : α → Rt β} {result : β} :
    (first >>= next) = .ok result ↔
      ∃ value, first = .ok value ∧ next value = .ok result := by
  cases first with
  | error fault =>
      simp [bind, Except.bind]
  | ok value =>
      simp [bind, Except.bind]

theorem map_eq_ok
    {α β : Type} {call : Rt α} {change : α → β} {result : β} :
    (change <$> call) = .ok result ↔
      ∃ value, call = .ok value ∧ change value = result := by
  cases call with
  | error fault =>
      simp [Functor.map, Except.map]
  | ok value =>
      simp [Functor.map, Except.map]

@[simp] theorem pure_eq_ok
    {α : Type} {value result : α} :
    (pure value : Rt α) = .ok result ↔ value = result := by
  simp [pure, Except.pure]

/-- A call that has a value has returned it. -/
theorem toOption_eq_some
    {α : Type} {call : Rt α} {result : α} :
    call.toOption = some result ↔ call = .ok result := by
  cases call with
  | error fault =>
      simp [Except.toOption]
  | ok value =>
      simp [Except.toOption]

@[simp] theorem check_eq_ok
    {function : String} {condition : Bool} {result : Unit} :
    check function condition = .ok result ↔ condition = true := by
  cases condition <;> simp [check]

/--
A loop of calls: what the body preserves, for the items done so far, holds of
all items when the loop returns.
-/
theorem foldlM_invariant
    {α β : Type} {body : β → α → Rt β} {items : List α} {start final : β}
    (Holds : List α → β → Prop)
    (initial : Holds [] start)
    (step : ∀ done item rest state next,
      items = done ++ item :: rest → Holds done state →
        body state item = .ok next → Holds (done ++ [item]) next)
    (runs : items.foldlM body start = .ok final) :
    Holds items final := by
  have general : ∀ (rest done : List α) (state : β),
      items = done ++ rest → Holds done state →
        rest.foldlM body state = .ok final → Holds items final := by
    intro rest
    induction rest with
    | nil =>
        intro done state split holds finished
        rw [List.foldlM_nil, pure_eq_ok] at finished
        rw [← finished, split, List.append_nil]
        exact holds
    | cons item rest inductionHypothesis =>
        intro done state split holds continued
        rw [List.foldlM_cons, bind_eq_ok] at continued
        obtain ⟨next, first, later⟩ := continued
        refine inductionHypothesis (done ++ [item]) next ?_ ?_ later
        · rw [split, List.append_assoc]
          rfl
        · exact step done item rest state next split holds first
  exact general items [] start rfl initial runs

/--
A loop of calls returns exactly when every item is good, if under an invariant the
body returns exactly on the good items.
-/
theorem foldlM_returns_iff
    {α β : Type} {body : β → α → Rt β} {items : List α}
    (Holds : β → Prop) (Good : α → Prop)
    (returns : ∀ item ∈ items, ∀ state, Holds state →
      ((∃ next, body state item = .ok next) ↔ Good item))
    (keeps : ∀ item ∈ items, ∀ state next, Holds state →
      body state item = .ok next → Holds next)
    {start : β} (initial : Holds start) :
    (∃ final, items.foldlM body start = .ok final) ↔ ∀ item ∈ items, Good item := by
  induction items generalizing start with
  | nil =>
      exact ⟨(fun _ _ never => nomatch never), fun _ => ⟨start, rfl⟩⟩
  | cons item rest inductionHypothesis =>
      have rest := fun (next : β) (holds : Holds next) =>
        inductionHypothesis
          (fun other listed => returns other (List.mem_cons_of_mem _ listed))
          (fun other listed => keeps other (List.mem_cons_of_mem _ listed)) holds
      rw [List.forall_mem_cons, ← returns item List.mem_cons_self start initial]
      constructor
      · rintro ⟨final, runs⟩
        rw [List.foldlM_cons] at runs
        obtain ⟨next, first, later⟩ := bind_eq_ok.mp runs
        exact ⟨⟨next, first⟩,
          (rest next (keeps item List.mem_cons_self _ _ initial first)).mp
            ⟨final, later⟩⟩
      · rintro ⟨⟨next, first⟩, others⟩
        obtain ⟨final, later⟩ :=
          (rest next (keeps item List.mem_cons_self _ _ initial first)).mpr others
        refine ⟨final, ?_⟩
        rw [List.foldlM_cons]
        exact bind_eq_ok.mpr ⟨next, first, later⟩

/-- The results of a list of calls that all returned. -/
theorem mem_of_mapM
    {α β : Type} {call : α → Rt β} {items : List α} {results : List β}
    (runs : items.mapM call = .ok results) :
    (∀ item ∈ items, ∃ result ∈ results, call item = .ok result) ∧
      (∀ result ∈ results, ∃ item ∈ items, call item = .ok result) := by
  induction items generalizing results with
  | nil =>
      rw [List.mapM_nil] at runs
      cases runs
      exact ⟨(fun _ never => nomatch never), fun _ never => nomatch never⟩
  | cons item rest inductionHypothesis =>
      rw [List.mapM_cons] at runs
      obtain ⟨first, firstRuns, runs⟩ := bind_eq_ok.mp runs
      obtain ⟨others, othersRun, stored⟩ := bind_eq_ok.mp runs
      cases stored
      obtain ⟨forward, backward⟩ := inductionHypothesis othersRun
      simp only [List.mem_cons, forall_eq_or_imp, exists_eq_or_imp]
      exact ⟨⟨.inl firstRuns, fun other listed => .inr (forward other listed)⟩,
        .inl firstRuns, fun other listed => .inr (backward other listed)⟩

section Dictionaries

variable {κ ν : Type} [DecidableEq κ]

/-- `dict_find`, returning the value of the entry found. -/
def dictFind (dict : OrdDict κ ν) (key : κ) : Option ν :=
  dict.find key

/-- `dict_in`. -/
def dictIn (dict : OrdDict κ ν) (key : κ) : Bool :=
  (dictFind dict key).isSome

/-- `dict_add`, which asserts that the key is new. -/
def dictAdd (dict : OrdDict κ ν) (key : κ) (value : ν) : Rt (OrdDict κ ν) :=
  match dict.add? key value with
  | some result => .ok result
  | none => .error (.check "dict_add")

/-- `dict_del`. -/
def dictDel (dict : OrdDict κ ν) (key : κ) : OrdDict κ ν :=
  dict.erase key

@[simp] theorem dictIn_iff {dict : OrdDict κ ν} {key : κ} :
    dictIn dict key = true ↔ key ∈ dict := by
  simp [dictIn, dictFind]

/-- `dict_add` returns exactly on a new key. -/
theorem dictAdd_eq_ok
    {dict result : OrdDict κ ν} {key : κ} {value : ν} :
    dictAdd dict key value = .ok result ↔
      key ∉ dict ∧ dict.insertNew key value = result := by
  rw [← OrdDict.add?_eq_some]
  unfold dictAdd
  cases dict.add? key value <;> simp

/--
Adding the keys of a list one after the other returns exactly when they are new
and distinct.
-/
theorem foldlM_dictAdd_eq_ok
    {keys : List κ} {value : ν} {dict result : OrdDict κ ν} :
    keys.foldlM (fun acc key => dictAdd acc key value) dict = .ok result →
      keys.Nodup ∧ (∀ key ∈ keys, key ∉ dict) ∧
        (∀ query, result.find query =
          if query ∈ keys then some value else dict.find query) ∧
        (∀ query, query ∈ result ↔ query ∈ keys ∨ query ∈ dict) := by
  intro added
  induction keys generalizing dict with
  | nil =>
      rw [List.foldlM_nil, pure_eq_ok] at added
      subst added
      simp
  | cons key rest inductionHypothesis =>
      rw [List.foldlM_cons, bind_eq_ok] at added
      obtain ⟨middle, first, later⟩ := added
      obtain ⟨fresh, rfl⟩ := dictAdd_eq_ok.mp first
      obtain ⟨restNodup, restFresh, lookup, members⟩ :=
        inductionHypothesis later
      refine ⟨?_, ?_, ?_, ?_⟩
      · rw [List.nodup_cons]
        refine ⟨fun inRest => ?_, restNodup⟩
        exact restFresh key inRest (OrdDict.mem_insertNew.mpr (Or.inl rfl))
      · intro other member
        rcases List.mem_cons.mp member with rfl | inRest
        · exact fresh
        · exact fun old =>
            restFresh other inRest (OrdDict.mem_insertNew.mpr (Or.inr old))
      · intro query
        rw [lookup, OrdDict.find_insertNew]
        by_cases inRest : query ∈ rest
        · simp [inRest]
        · by_cases same : query = key <;> simp [inRest, same, fresh]
      · intro query
        rw [members, OrdDict.mem_insertNew, List.mem_cons]
        tauto

/-- Adding distinct new keys one after the other returns. -/
theorem foldlM_dictAdd_ok
    {keys : List κ} (value : ν) {dict : OrdDict κ ν}
    (nodup : keys.Nodup) (fresh : ∀ key ∈ keys, key ∉ dict) :
    ∃ result,
      keys.foldlM (fun acc key => dictAdd acc key value) dict = .ok result := by
  induction keys generalizing dict with
  | nil =>
      exact ⟨dict, rfl⟩
  | cons key rest inductionHypothesis =>
      rw [List.nodup_cons] at nodup
      have added : dictAdd dict key value = .ok (dict.insertNew key value) :=
        dictAdd_eq_ok.mpr ⟨fresh key (by simp), rfl⟩
      have restFresh : ∀ other ∈ rest, other ∉ dict.insertNew key value := by
        intro other inRest present
        rcases OrdDict.mem_insertNew.mp present with rfl | old
        · exact nodup.1 inRest
        · exact fresh other (List.mem_cons_of_mem _ inRest) old
      obtain ⟨result, runs⟩ := inductionHypothesis nodup.2 restFresh
      exact ⟨result, by rw [List.foldlM_cons, added]; exact runs⟩

end Dictionaries

end Mcfi
