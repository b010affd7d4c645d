import Mcfi.HalfId
import Mcfi.Graph

namespace Mcfi

open LinkMap

/-!
# Identifiers

`gen_mcfi_id` gives every vertex the id of its component.  An id is a 64-bit
word: the component's half id above, the version below, and bit 0 set.  Bit 0
tells an active target from an inactive one.
-/

/-- `(id << 32) | mcfi_version | 1`. -/
def makeId (half mcfiVersion : Nat) : Nat :=
  (half <<< 32) ||| mcfiVersion ||| 1

/-- What `gen_mcfi_id` leaves behind. -/
structure IdTables where
  callids : OrdDict Nat Nat
  retids : OrdDict Nat Nat
  idForOthers : Nat
  version : Nat

/-- The half id of the next component, and the running number left behind. -/
def nextHalf (compatMode : Bool) (dv eqcNumber : Nat) : Nat × Nat :=
  if compatMode then (dv, eqcNumber) else convertToMcfiHalfIdFormat eqcNumber

/-- `GEN_IDS`, the body of the loop over the components. -/
def genComponentIds (compatMode : Bool) (dv mcfiVersion : Nat)
    (state : OrdDict Nat Nat × Nat) (component : KeySet Nat) :
    Rt (OrdDict Nat Nat × Nat) := do
  let (half, eqcNumber) := nextHalf compatMode dv state.2
  let ids ← component.keys.foldlM
    (fun ids key => dictAdd ids key (makeId half mcfiVersion)) state.1
  return (ids, eqcNumber)

/-- `GEN_IDS`. -/
def genIds (compatMode : Bool) (dv mcfiVersion : Nat)
    (lcc : List (KeySet Nat)) (eqcNumber : Nat) :
    Rt (OrdDict Nat Nat × Nat) :=
  lcc.foldlM (genComponentIds compatMode dv mcfiVersion) (∅, eqcNumber)

/-- `gen_mcfi_id`. -/
def genMcfiId (compatMode : Bool) (lcg lrt : List (KeySet Nat))
    (version : Nat) : Rt IdTables := do
  let mcfiVersion := (convertToMcfiHalfIdFormat version).1
  let (callids, eqcNumber) ← genIds compatMode 1 mcfiVersion lcg 0
  let (retids, eqcNumber) ← genIds compatMode 2 mcfiVersion lrt eqcNumber
  return {
    callids := callids
    retids := retids
    idForOthers :=
      if compatMode then NPV
      else makeId (convertToMcfiHalfIdFormat eqcNumber).1 mcfiVersion
    version := (convertToMcfiHalfIdFormat version).2 }

section Words

/-- The version half of a word: an even number of four bytes. -/
structure VersionFormat (mcfiVersion : Nat) : Prop where
  isFourBytes : mcfiVersion < 2 ^ 32
  isEven : mcfiVersion % 2 = 0

/-- Half ids have the format of a version. -/
theorem HalfIdFormat.version {half : Nat} (format : HalfIdFormat half) :
    VersionFormat half where
  isFourBytes := format.isFourBytes
  isEven := by
    have lowByte := format.fieldEven 0 (by decide)
    omega

variable {half otherHalf mcfiVersion otherVersion : Nat}

/-- An id in arithmetic form. -/
theorem makeId_eq (format : VersionFormat mcfiVersion) :
    makeId half mcfiVersion = half * 2 ^ 32 + mcfiVersion + 1 := by
  have lowFits : mcfiVersion + 1 < 2 ^ 32 := by
    have bound := format.isFourBytes
    have even := format.isEven
    omega
  have lowJoined : mcfiVersion ||| 1 = mcfiVersion + 1 := by
    have joined := Nat.two_pow_add_eq_or_of_lt
      (show 1 < 2 ^ 1 by decide) (mcfiVersion / 2)
    have half2 : 2 ^ 1 * (mcfiVersion / 2) = mcfiVersion := by
      have even := format.isEven
      omega
    rw [half2] at joined
    exact joined.symm
  have joined := Nat.two_pow_add_eq_or_of_lt lowFits half
  rw [makeId, Nat.or_assoc, lowJoined, Nat.shiftLeft_eq, Nat.mul_comm half,
    ← joined, Nat.add_assoc]

/-- Bit 0 of an id is set. -/
theorem makeId_odd (format : VersionFormat mcfiVersion) :
    makeId half mcfiVersion % 2 = 1 := by
  rw [makeId_eq format]
  have even := format.isEven
  omega

/-- The low half of an id is the version with bit 0 set. -/
theorem makeId_low (format : VersionFormat mcfiVersion) :
    makeId half mcfiVersion % 2 ^ 32 = mcfiVersion + 1 := by
  rw [makeId_eq format]
  have bound := format.isFourBytes
  have even := format.isEven
  omega

/-- An id of four-byte halves is a 64-bit word. -/
theorem makeId_lt (halfFits : half < 2 ^ 32)
    (format : VersionFormat mcfiVersion) :
    makeId half mcfiVersion < 2 ^ 64 := by
  rw [makeId_eq format]
  have bound := format.isFourBytes
  have even := format.isEven
  omega

/-- Ids of one version are equal when their half ids are. -/
theorem makeId_inj (format : VersionFormat mcfiVersion) :
    makeId half mcfiVersion = makeId otherHalf mcfiVersion ↔
      half = otherHalf := by
  rw [makeId_eq format, makeId_eq format]
  omega

/-- Masking with `-2` clears bit 0 of a word. -/
theorem and_minusTwo {word : Nat} (fits : word < 2 ^ 64) :
    word &&& 0xFFFFFFFFFFFFFFFE = word - word % 2 := by
  have mask : (0xFFFFFFFFFFFFFFFE : Nat) = 2 * (2 ^ 63 - 1) := by decide
  have split : word = 2 * (word / 2) + word % 2 := by omega
  have small : word / 2 < 2 ^ 63 := by omega
  have highBits : (word / 2) &&& (2 ^ 63 - 1) = word / 2 := by
    rw [Nat.and_two_pow_sub_one_eq_mod]
    exact Nat.mod_eq_of_lt small
  apply Nat.eq_of_testBit_eq
  intro index
  cases index with
  | zero =>
      simp only [Nat.testBit_zero, mask]
      have even : (word - word % 2) % 2 = 0 := by omega
      simp [even, Nat.and_mod_two_pow (n := 1)]
  | succ index =>
      have shifted : (word - word % 2) / 2 = word / 2 := by omega
      rw [Nat.testBit_succ, Nat.testBit_succ, shifted, Nat.and_div_two]
      have maskHalf : (0xFFFFFFFFFFFFFFFE : Nat) / 2 = 2 ^ 63 - 1 := by decide
      rw [maskHalf, highBits]

end Words

section Generation

/-- The half id of the component with a given index. -/
def componentHalf (compatMode : Bool) (dv eqcNumber index : Nat) : Nat :=
  if compatMode then dv else halfIdAt eqcNumber index

/-- The running number after a number of components. -/
def numberAfterComponents (compatMode : Bool) (eqcNumber count : Nat) : Nat :=
  if compatMode then eqcNumber else numberAfter eqcNumber count

/-- A vertex has the id of the component at some index. -/
def HasComponentId (compatMode : Bool) (dv mcfiVersion eqcNumber : Nat)
    (lcc : List (KeySet Nat)) (key id : Nat) : Prop :=
  ∃ index component, lcc[index]? = some component ∧ key ∈ component ∧
    id = makeId (componentHalf compatMode dv eqcNumber index) mcfiVersion

/-- The head's vertices have the next id, the others those of the tail. -/
private theorem hasComponentId_cons
    {compatMode : Bool} {dv mcfiVersion eqcNumber : Nat}
    {head : KeySet Nat} {rest : List (KeySet Nat)} {key id : Nat} :
    HasComponentId compatMode dv mcfiVersion eqcNumber (head :: rest) key id ↔
      (key ∈ head ∧
        id = makeId (nextHalf compatMode dv eqcNumber).1 mcfiVersion) ∨
      HasComponentId compatMode dv mcfiVersion
        (nextHalf compatMode dv eqcNumber).2 rest key id := by
  have first : componentHalf compatMode dv eqcNumber 0 =
      (nextHalf compatMode dv eqcNumber).1 := by
    cases compatMode <;> rfl
  have later : ∀ index, componentHalf compatMode dv eqcNumber (index + 1) =
      componentHalf compatMode dv (nextHalf compatMode dv eqcNumber).2
        index := by
    intro index
    cases compatMode with
    | false => exact halfIdAt_succ_front eqcNumber index
    | true => rfl
  unfold HasComponentId
  constructor
  · rintro ⟨index, component, located, member, rfl⟩
    cases index with
    | zero =>
        have same : head = component := by simpa using located
        exact Or.inl ⟨same ▸ member, by rw [first]⟩
    | succ index =>
        exact Or.inr ⟨index, component, by simpa using located, member,
          by rw [later]⟩
  · rintro (⟨member, rfl⟩ | ⟨index, component, located, member, rfl⟩)
    · exact ⟨0, head, rfl, member, by rw [first]⟩
    · exact ⟨index + 1, component, by simpa using located, member,
        by rw [later]⟩

/-- `GEN_IDS` returns on disjoint components, each vertex with its id. -/
theorem genIds_ok
    (compatMode : Bool) (dv mcfiVersion : Nat) {lcc : List (KeySet Nat)}
    (disjoint : lcc.Pairwise Apart) (eqcNumber : Nat) :
    ∃ ids,
      genIds compatMode dv mcfiVersion lcc eqcNumber =
          .ok (ids, numberAfterComponents compatMode eqcNumber lcc.length) ∧
        ∀ key id, ids.find key = some id ↔
          HasComponentId compatMode dv mcfiVersion eqcNumber lcc key id := by
  have fold : ∀ (rest : List (KeySet Nat)) (start : OrdDict Nat Nat)
      (number : Nat),
      rest.Pairwise Apart →
      (∀ component ∈ rest, ∀ key ∈ component, key ∉ start) →
      ∃ ids,
        rest.foldlM (genComponentIds compatMode dv mcfiVersion)
            (start, number) =
          .ok (ids, numberAfterComponents compatMode number rest.length) ∧
        ∀ key id, ids.find key = some id ↔
          start.find key = some id ∨
            HasComponentId compatMode dv mcfiVersion number rest key id := by
    intro rest
    induction rest with
    | nil =>
        intro start number _ _
        refine ⟨start, ?_, by simp [HasComponentId]⟩
        cases compatMode <;> rfl
    | cons head tail inductionHypothesis =>
        intro start number apart fresh
        rw [List.pairwise_cons] at apart
        obtain ⟨middle, added⟩ := foldlM_dictAdd_ok
          (makeId (nextHalf compatMode dv number).1 mcfiVersion)
          head.keys_nodup (fresh head (by simp))
        obtain ⟨_, _, lookup, members⟩ := foldlM_dictAdd_eq_ok added
        have tailFresh : ∀ component ∈ tail, ∀ key ∈ component,
            key ∉ middle := by
          intro component listed key inside present
          rcases (members key).mp present with inHead | old
          · exact apart.1 component listed key inHead inside
          · exact fresh component (List.mem_cons_of_mem _ listed) key inside old
        obtain ⟨ids, runs, found⟩ := inductionHypothesis middle
          (nextHalf compatMode dv number).2 apart.2 tailFresh
        refine ⟨ids, ?_, ?_⟩
        · have headRuns : genComponentIds compatMode dv mcfiVersion
              (start, number) head =
                .ok (middle, (nextHalf compatMode dv number).2) := by
            unfold genComponentIds
            rw [bind_eq_ok]
            exact ⟨middle, added, rfl⟩
          have numbers : numberAfterComponents compatMode
              (nextHalf compatMode dv number).2 tail.length =
                numberAfterComponents compatMode number
                  (head :: tail).length := by
            cases compatMode with
            | false => exact (numberAfter_succ_front number tail.length).symm
            | true => rfl
          rw [List.foldlM_cons, headRuns, ← numbers]
          exact runs
        · intro key id
          rw [found, hasComponentId_cons, lookup, ← or_assoc]
          apply or_congr_left
          by_cases inHead : key ∈ head.keys
          · have absent : start.find key = none :=
              OrdDict.find_eq_none.mpr (fresh head (by simp) key inHead)
            have member : key ∈ head := inHead
            simp [inHead, absent, member, eq_comm]
          · have outside : key ∉ head := inHead
            simp [inHead, outside]
  obtain ⟨ids, runs, found⟩ := fold lcc ∅ eqcNumber disjoint (by simp)
  exact ⟨ids, runs, fun key id => by rw [found key id]; simp⟩

/--
The ids of a graph's vertices: each has one, and two vertices of different
components have different ones while the components are fewer than `125^4`.
-/
structure IdsOf (graph : LinkMap Nat Nat) (compatMode : Bool)
    (dv mcfiVersion eqcNumber : Nat) (count : Nat) (ids : OrdDict Nat Nat) :
    Prop where
  memIff : ∀ key, key ∈ ids ↔ key ∈ graph
  hasIndex : ∀ key id, ids.find key = some id → ∃ index < count,
    id = makeId (componentHalf compatMode dv eqcNumber index) mcfiVersion
  sameOfComponent : ∀ first second id,
    SameComponent graph first second → ids.find first = some id →
      ids.find second = some id
  componentOfSame : ∀ first second id, compatMode = false → count ≤ 125 ^ 4 →
    ids.find first = some id → ids.find second = some id →
      SameComponent graph first second

/-- The ids that follow a graph's component list are ids of the graph. -/
theorem idsOf_components
    {graph : LinkMap Nat Nat} {compatMode : Bool}
    {dv mcfiVersion eqcNumber : Nat} {lcc : List (KeySet Nat)}
    {ids : OrdDict Nat Nat}
    (undirected : Undirected graph) (isComponents : IsComponents graph lcc)
    (format : VersionFormat mcfiVersion)
    (found : ∀ key id, ids.find key = some id ↔
      HasComponentId compatMode dv mcfiVersion eqcNumber lcc key id) :
    IdsOf graph compatMode dv mcfiVersion eqcNumber lcc.length ids where
  memIff := by
    intro key
    rw [← isComponents.mem_graph_iff undirected]
    constructor
    · intro member
      obtain ⟨id, located⟩ := OrdDict.exists_find_of_mem member
      obtain ⟨_, component, listed, inside, _⟩ := (found key id).mp located
      exact ⟨component, List.mem_of_getElem? listed, inside⟩
    · rintro ⟨component, listed, inside⟩
      obtain ⟨index, located⟩ := List.mem_iff_getElem?.mp listed
      exact OrdDict.mem_of_find
        ((found key _).mpr ⟨index, component, located, inside, rfl⟩)
  hasIndex := by
    intro key id located
    obtain ⟨index, component, listed, _, idIs⟩ := (found key id).mp located
    exact ⟨index, (List.getElem?_eq_some_iff.mp listed).1, idIs⟩
  sameOfComponent := by
    intro first second id same located
    obtain ⟨index, component, listed, inside, idIs⟩ :=
      (found first id).mp located
    have secondInside : second ∈ component :=
      (isComponents.mem_iff undirected
        (List.mem_of_getElem? listed) inside).mpr same
    exact (found second id).mpr ⟨index, component, listed, secondInside, idIs⟩
  componentOfSame := by
    intro first second id notCompat few firstLocated secondLocated
    obtain ⟨firstIndex, firstComponent, firstListed, firstInside, firstId⟩ :=
      (found first id).mp firstLocated
    obtain ⟨secondIndex, secondComponent, secondListed, secondInside,
      secondId⟩ := (found second id).mp secondLocated
    have sameHalf := (makeId_inj format).mp (firstId.symm.trans secondId)
    simp only [componentHalf, notCompat, Bool.false_eq_true, if_false]
      at sameHalf
    have sameIndex : firstIndex = secondIndex := by
      have firstBelow := (List.getElem?_eq_some_iff.mp firstListed).1
      have secondBelow := (List.getElem?_eq_some_iff.mp secondListed).1
      rw [halfIdAt_eq_iff, Nat.mod_eq_of_lt (by omega),
        Nat.mod_eq_of_lt (by omega)] at sameHalf
      exact sameHalf
    subst sameIndex
    rw [firstListed] at secondListed
    cases secondListed
    exact (isComponents.mem_iff undirected
      (List.mem_of_getElem? firstListed) firstInside).mp secondInside

/-- The ids that `gen_mcfi_id` gives to the two graphs. -/
structure IdAssignment (compatMode : Bool) (callgraph retgraph : LinkMap Nat Nat)
    (version : Nat) (tables : IdTables) where
  callCount : Nat
  retCount : Nat
  callComponents : ∃ lcg, gGetLcc callgraph = .ok lcg ∧ lcg.length = callCount
  retComponents : ∃ lrt, gGetLcc retgraph = .ok lrt ∧ lrt.length = retCount
  callIds : IdsOf callgraph compatMode 1
    (convertToMcfiHalfIdFormat version).1 0 callCount tables.callids
  retIds : IdsOf retgraph compatMode 2
    (convertToMcfiHalfIdFormat version).1
    (numberAfterComponents compatMode 0 callCount) retCount tables.retids
  othersAre : tables.idForOthers =
    if compatMode then NPV
    else makeId (halfIdAt 0 (callCount + retCount))
      (convertToMcfiHalfIdFormat version).1
  versionIs : tables.version = (convertToMcfiHalfIdFormat version).2

/-- `gen_mcfi_id` returns on the components of two undirected graphs. -/
theorem genMcfiId_ok
    (compatMode : Bool) {callgraph retgraph : LinkMap Nat Nat}
    (callUndirected : Undirected callgraph)
    (retUndirected : Undirected retgraph) (version : Nat)
    {lcg lrt : List (KeySet Nat)}
    (lcgRuns : gGetLcc callgraph = .ok lcg)
    (lrtRuns : gGetLcc retgraph = .ok lrt) :
    ∃ tables, genMcfiId compatMode lcg lrt version = .ok tables ∧
      Nonempty (IdAssignment compatMode callgraph retgraph version tables) := by
  have componentsOf : ∀ {graph : LinkMap Nat Nat} {lcc : List (KeySet Nat)},
      Undirected graph → gGetLcc graph = .ok lcc → IsComponents graph lcc := by
    intro graph lcc undirected runs
    obtain ⟨other, otherRuns, isComponents⟩ := gGetLcc_ok undirected
    rw [runs] at otherRuns
    cases otherRuns
    exact isComponents
  have callComponents := componentsOf callUndirected lcgRuns
  have retComponents := componentsOf retUndirected lrtRuns
  have format := (convert_format version).version
  obtain ⟨callids, callRuns, callFound⟩ :=
    genIds_ok compatMode 1 (convertToMcfiHalfIdFormat version).1
      callComponents.disjoint 0
  obtain ⟨retids, retRuns, retFound⟩ :=
    genIds_ok compatMode 2 (convertToMcfiHalfIdFormat version).1
      retComponents.disjoint (numberAfterComponents compatMode 0 lcg.length)
  refine ⟨_, by simp only [genMcfiId, callRuns, retRuns, bind, Except.bind]
                rfl, ⟨{
    callCount := lcg.length
    retCount := lrt.length
    callComponents := ⟨lcg, lcgRuns, rfl⟩
    retComponents := ⟨lrt, lrtRuns, rfl⟩
    callIds := idsOf_components callUndirected callComponents format callFound
    retIds := idsOf_components retUndirected retComponents format retFound
    othersAre := ?_
    versionIs := rfl }⟩⟩
  cases compatMode with
  | true => rfl
  | false =>
      change makeId (halfIdAt (numberAfter (numberAfter 0 lcg.length)
        lrt.length) 0) _ = _
      rw [halfIdAt_numberAfter, halfIdAt_numberAfter, Nat.add_zero]
      rfl

namespace IdAssignment

variable {compatMode : Bool} {callgraph retgraph : LinkMap Nat Nat}
  {version : Nat} {tables : IdTables}
  (assignment : IdAssignment compatMode callgraph retgraph version tables)

/-- The version that the words of this generation carry. -/
def mcfiVersion (_ : IdAssignment compatMode callgraph retgraph version tables) :
    Nat :=
  (convertToMcfiHalfIdFormat version).1

/-- A return id, as the id of a component counted after the call graph's. -/
theorem retid_index
    (notCompat : compatMode = false) {key id : Nat}
    (found : tables.retids.find key = some id) :
    ∃ index < assignment.retCount,
      id = makeId (halfIdAt 0 (assignment.callCount + index))
        (convertToMcfiHalfIdFormat version).1 := by
  obtain ⟨index, below, idIs⟩ := assignment.retIds.hasIndex key id found
  refine ⟨index, below, ?_⟩
  simp only [idIs, componentHalf, numberAfterComponents, notCompat,
    Bool.false_eq_true, if_false, halfIdAt_numberAfter]

/-- A call id, as the id of a component. -/
theorem callid_index
    (notCompat : compatMode = false) {key id : Nat}
    (found : tables.callids.find key = some id) :
    ∃ index < assignment.callCount,
      id = makeId (halfIdAt 0 index)
        (convertToMcfiHalfIdFormat version).1 := by
  obtain ⟨index, below, idIs⟩ := assignment.callIds.hasIndex key id found
  refine ⟨index, below, ?_⟩
  simp only [idIs, componentHalf, notCompat, Bool.false_eq_true, if_false]

/-- Call ids, return ids and the id for others never coincide. -/
theorem ids_distinct
    (notCompat : compatMode = false)
    (few : assignment.callCount + assignment.retCount < 125 ^ 4) :
    (∀ callKey retKey callId retId,
      tables.callids.find callKey = some callId →
        tables.retids.find retKey = some retId → callId ≠ retId) ∧
    (∀ key id, tables.callids.find key = some id → id ≠ tables.idForOthers) ∧
    (∀ key id, tables.retids.find key = some id → id ≠ tables.idForOthers) := by
  have othersIs := assignment.othersAre
  simp only [notCompat, Bool.false_eq_true, if_false] at othersIs
  have format := (convert_format version).version
  have distinct : ∀ first second, first < 125 ^ 4 → second < 125 ^ 4 →
      makeId (halfIdAt 0 first) (convertToMcfiHalfIdFormat version).1 =
        makeId (halfIdAt 0 second) (convertToMcfiHalfIdFormat version).1 →
      first = second := by
    intro first second firstBelow secondBelow same
    have sameHalf := (makeId_inj format).mp same
    rw [halfIdAt_eq_iff, Nat.mod_eq_of_lt firstBelow,
      Nat.mod_eq_of_lt secondBelow] at sameHalf
    exact sameHalf
  refine ⟨?_, ?_, ?_⟩
  · intro callKey retKey callId retId callFound retFound same
    obtain ⟨callIndex, callBelow, callIs⟩ :=
      assignment.callid_index notCompat callFound
    obtain ⟨retIndex, retBelow, retIs⟩ :=
      assignment.retid_index notCompat retFound
    have index := distinct _ _ (by omega) (by omega)
      (callIs.symm.trans (same.trans retIs))
    omega
  · intro key id found same
    obtain ⟨index, below, idIs⟩ := assignment.callid_index notCompat found
    have sameIndex := distinct _ _ (by omega) (by omega)
      (idIs.symm.trans (same.trans othersIs))
    omega
  · intro key id found same
    obtain ⟨index, below, idIs⟩ := assignment.retid_index notCompat found
    have sameIndex := distinct _ _ (by omega) (by omega)
      (idIs.symm.trans (same.trans othersIs))
    omega

end IdAssignment

end Generation

end Mcfi
