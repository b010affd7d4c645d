import Mcfi.Constants
import Mcfi.Lib.OrdDict
import Mathlib.Data.List.Chain

namespace Mcfi

/-!
# Calls that announce taken addresses

The pass `FuncAddrTaken` puts a call to `__patch_at` in front of every instruction that
takes the address of a function, at most one for a function in a basic block.  The
calls for the operands of a phi stand at the ends of the incoming blocks, and which
call comes first in the order of the pass decides where the only one of a block stands.
-/

section Code

/-- An operand; what is not a constant is `none`. -/
abbrev Operand := Option Constant

/-- The instructions of the intermediate code, as far as the pass tells them apart. -/
inductive Inst where
  | store (value : Operand)
  | select (trueValue falseValue : Operand)
  | call (arguments : List Operand)
  | invoke (arguments : List Operand)
  | ret (value : Operand)
  | phi (incoming : List (Operand × Nat))
  | other

/-- A basic block; its last instruction ends it. -/
structure BasicBlock where
  insts : List Inst
  successors : List Nat
  nonempty : insts ≠ []

/-- A module: the names in it, and the blocks of each function, the entry first. -/
structure IrModule where
  symbols : List Text
  functions : List (List BasicBlock)

/-- An instruction of a block. -/
def instAt (blocks : List BasicBlock) (block position : Nat) : Option Inst :=
  blocks[block]?.bind fun body => body.insts[position]?

/-- The position of `BB->back()`. -/
def backOf (blocks : List BasicBlock) (block : Nat) : Nat :=
  match blocks[block]? with
  | some body => body.insts.length - 1
  | none => 0

end Code

section Pass

/-- The names that `addPatchAt` leaves alone. -/
def isGlobalCtorDtor (name : Text) : Bool :=
  "_GLOBAL__D_".toList.isPrefixOf name || "_GLOBAL__E_".toList.isPrefixOf name

/--
The calls so far, with the instructions in front of which they stand.  Their keys are
`UniqPatchAt`: a block and a function.
-/
abbrev PatchAts := OrdDict (Nat × Text) Nat

/-- `addPatchAt`, of what `InnerMost` leaves of a value. -/
def addPatchAt (calls : PatchAts) (value : Operand) (block position : Nat) : PatchAts :=
  match value.bind fun constant => constant.innerMost.namedFunction with
  | some name =>
      if isGlobalCtorDtor name then calls else calls.insertNew (block, name) position
  | none => calls

/-- The operands of a constant vector, struct or array. -/
def Constant.elements : Constant → List Constant
  | .vector operands => operands
  | .struct operands => operands
  | .array operands => operands
  | _ => []

/--
The values for which an instruction gets calls in front of itself.  For a store these
are its value and the elements of it; an element that was seen before has its function
in the set of the block.
-/
def Inst.values : Inst → List Operand
  | .store none => [none]
  | .store (some value) => some value :: value.innerMost.elements.map some
  | .select trueValue falseValue => [trueValue, falseValue]
  | .call arguments => arguments
  | .invoke arguments => arguments
  | .ret value => [value]
  | .phi _ => []
  | .other => []

/-- The values of a phi, which get their calls in the incoming blocks. -/
def Inst.incoming : Inst → List (Operand × Nat)
  | .phi incoming => incoming
  | _ => []

/-- An instruction that the pass visits. -/
structure Visit where
  block : Nat
  position : Nat
  inst : Inst

/-- The instructions in the order in which the pass visits them. -/
def visits (blocks : List BasicBlock) : List Visit :=
  blocks.zipIdx.flatMap fun (body, block) =>
    body.insts.zipIdx.map fun (inst, position) => ⟨block, position, inst⟩

/-- What the pass does with an instruction. -/
def visitInst (blocks : List BasicBlock) (calls : PatchAts) (visit : Visit) : PatchAts :=
  let calls := visit.inst.values.foldl
    (fun calls value => addPatchAt calls value visit.block visit.position) calls
  visit.inst.incoming.foldl
    (fun calls edge => addPatchAt calls edge.1 edge.2 (backOf blocks edge.2)) calls

/-- The calls for a function. -/
def patchAts (blocks : List BasicBlock) : PatchAts :=
  (visits blocks).foldl (visitInst blocks) ∅

/-- An instruction behind the pass: a call to `__patch_at`, or one that was there. -/
inductive Emitted where
  | patchAt (name : Text)
  | inst (inst : Inst)

/-- The calls in front of an instruction. -/
def patchAtsBefore (calls : PatchAts) (block position : Nat) : List Emitted :=
  calls.entries.filterMap fun entry =>
    if entry.1.1 = block ∧ entry.2 = position then some (.patchAt entry.1.2) else none

/-- A block with its calls. -/
def withPatchAts (calls : PatchAts) (block : Nat) (insts : List Inst) : List Emitted :=
  insts.zipIdx.flatMap fun (inst, position) =>
    patchAtsBefore calls block position ++ [.inst inst]

/--
`runOnModule`, for one function of the module.  Where the name `__patch_at` is taken,
the pass does nothing.
-/
def runOnFunction (m : IrModule) (blocks : List BasicBlock) : List (List Emitted) :=
  if "__patch_at".toList ∈ m.symbols then
    blocks.map fun body => body.insts.map Emitted.inst
  else
    blocks.zipIdx.map fun (body, block) => withPatchAts (patchAts blocks) block body.insts

/-- `runOnModule`, up to the virtual tables. -/
def runOnModule (m : IrModule) : List (List (List Emitted)) :=
  m.functions.map (runOnFunction m)

end Pass

section Paths

/-- A constant that points to a function: the function, or pointer casts of it. -/
inductive Constant.PointsTo (name : Text) : Constant → Prop where
  | function : PointsTo name (.function name)
  | bitCast {operand : Constant} (points : PointsTo name operand) :
      PointsTo name (.cast .bitCast operand)
  | addrSpaceCast {operand : Constant} (points : PointsTo name operand) :
      PointsTo name (.cast .addrSpaceCast operand)

/-- A constant that holds the address of a function, itself or in an element. -/
inductive Constant.Takes (name : Text) : Constant → Prop where
  | pointer {constant : Constant} (points : constant.PointsTo name) : Takes name constant
  | ptrToInt {operand : Constant} (points : operand.PointsTo name) :
      Takes name (.cast .ptrToInt operand)
  | element {constant operand : Constant} (listed : operand ∈ constant.elements)
      (takes : Takes name operand) : Takes name constant

/-- An operand that holds the address of a function. -/
def Operand.Takes (name : Text) (operand : Operand) : Prop :=
  ∃ constant, operand = some constant ∧ constant.Takes name

/-- The operands of an instruction, other than those of a phi. -/
def Inst.operands : Inst → List Operand
  | .store value => [value]
  | .select trueValue falseValue => [trueValue, falseValue]
  | .call arguments => arguments
  | .invoke arguments => arguments
  | .ret value => [value]
  | .phi _ => []
  | .other => []

/-- An instruction that takes the address of a function. -/
def Inst.Takes (name : Text) (inst : Inst) : Prop :=
  ∃ operand ∈ inst.operands, Operand.Takes name operand

/-- The functions whose addresses are to be announced. -/
structure Announced (name : Text) : Prop where
  named : name ≠ []
  notCtorDtor : isGlobalCtorDtor name = false

/-- Control goes from one block to another. -/
def Edge (blocks : List BasicBlock) (block next : Nat) : Prop :=
  ∃ body, blocks[block]? = some body ∧ next ∈ body.successors

/-- A path through a function. -/
structure IsPath (blocks : List BasicBlock) (path : List Nat) : Prop where
  entry : path.head? = some 0
  edges : path.IsChain (Edge blocks)

/-- On a path, every address is announced in the block before it is taken. -/
structure AnnouncedOn (emitted : List (List Emitted)) (path : List Nat) : Prop where
  uses : ∀ block ∈ path, ∀ early inst late,
    emitted[block]? = some (early ++ .inst inst :: late) →
      ∀ name, Announced name → inst.Takes name → .patchAt name ∈ early
  edges : ∀ first block next rest, path = first ++ block :: next :: rest →
    ∀ body incoming value, emitted[next]? = some body → .inst (.phi incoming) ∈ body →
      (value, block) ∈ incoming → ∀ name, Announced name → Operand.Takes name value →
        ∃ early last, emitted[block]? = some (early ++ [.inst last]) ∧
          .patchAt name ∈ early

end Paths

section Condition

/-- The function that `addPatchAt` finds in a value. -/
def seenIn (value : Operand) : Option Text :=
  value.bind fun constant => constant.innerMost.namedFunction

/-- The pass sees a function in an operand of the instruction at a position. -/
def SeenAt (blocks : List BasicBlock) (block position : Nat) (name : Text) : Prop :=
  ∃ inst, instAt blocks block position = some inst ∧
    ∃ value ∈ inst.values, seenIn value = some name

/-- The phi at a position of block `next` sees a function that comes from `block`. -/
def SeenFrom (blocks : List BasicBlock) (block next position : Nat) (name : Text) :
    Prop :=
  ∃ inst, instAt blocks next position = some inst ∧
    ∃ value, (value, block) ∈ inst.incoming ∧ seenIn value = some name

/--
A function is seen in the block at the position or before it, and no phi that the pass
visits earlier sees it coming from the block; or the position is the last one, and some
phi sees it coming from the block.
-/
def SeenInTime (blocks : List BasicBlock) (block position : Nat) (name : Text) : Prop :=
  (∃ earlier ≤ position, SeenAt blocks block earlier name ∧
    ∀ next at', SeenFrom blocks block next at' name →
      block < next ∨ block = next ∧ earlier < at') ∨
  position = backOf blocks block ∧ ∃ next at', SeenFrom blocks block next at' name

/-- What the code of a function has to be along a path. -/
structure CoveredOn (m : IrModule) (blocks : List BasicBlock) (path : List Nat) :
    Prop where
  uses : ∀ block ∈ path, ∀ position inst, instAt blocks block position = some inst →
    ∀ name, Announced name → inst.Takes name →
      "__patch_at".toList ∉ m.symbols ∧ SeenInTime blocks block position name
  edges : ∀ first block next rest, path = first ++ block :: next :: rest →
    ∀ position incoming value, instAt blocks next position = some (.phi incoming) →
      (value, block) ∈ incoming → ∀ name, Announced name → Operand.Takes name value →
        "__patch_at".toList ∉ m.symbols ∧
          ((∃ at', SeenAt blocks block at' name) ∨
            ∃ other at', SeenFrom blocks block other at' name)

end Condition

section Requests

variable {blocks : List BasicBlock} {block position : Nat} {name : Text}

/-- The call that a value asks for. -/
def request (value : Operand) (block position : Nat) : Option ((Nat × Text) × Nat) :=
  match seenIn value with
  | some name => if isGlobalCtorDtor name then none else some ((block, name), position)
  | none => none

theorem addPatchAt_eq (calls : PatchAts) (value : Operand) (block position : Nat) :
    addPatchAt calls value block position =
      match request value block position with
      | some entry => calls.insertNew entry.1 entry.2
      | none => calls := by
  rw [addPatchAt, request, seenIn]
  cases value.bind fun constant => constant.innerMost.namedFunction with
  | none => rfl
  | some name =>
      cases excepted : isGlobalCtorDtor name with
      | true => simp only [excepted, if_true]
      | false => simp only [excepted, Bool.false_eq_true, if_false]

theorem request_eq_some {value : Operand} {entry : (Nat × Text) × Nat} :
    request value block position = some entry ↔
      ∃ name, seenIn value = some name ∧ isGlobalCtorDtor name = false ∧
        entry = ((block, name), position) := by
  rw [request]
  cases seen : seenIn value with
  | none => simp
  | some name =>
      cases excepted : isGlobalCtorDtor name with
      | true => simp [excepted]
      | false =>
          simp only [excepted, Bool.false_eq_true, if_false, Option.some.injEq]
          constructor
          · rintro rfl
            exact ⟨name, rfl, excepted, rfl⟩
          · rintro ⟨other, rfl, -, rfl⟩
            rfl

/-- The calls that an instruction asks for. -/
def Visit.requests (blocks : List BasicBlock) (visit : Visit) :
    List ((Nat × Text) × Nat) :=
  visit.inst.values.filterMap (fun value => request value visit.block visit.position) ++
    visit.inst.incoming.filterMap fun edge =>
      request edge.1 edge.2 (backOf blocks edge.2)

theorem visitInst_eq (calls : PatchAts) (visit : Visit) :
    visitInst blocks calls visit =
      (visit.requests blocks).foldl (fun calls entry => calls.insertNew entry.1 entry.2)
        calls := by
  rw [Visit.requests, List.foldl_append, List.foldl_filterMap, List.foldl_filterMap]
  rw [visitInst]
  congr 1
  · funext calls edge
    rw [addPatchAt_eq]
    cases request edge.1 edge.2 (backOf blocks edge.2) <;> rfl
  · congr 1
    funext calls value
    rw [addPatchAt_eq]
    cases request value visit.block visit.position <;> rfl

/-- Of the calls for a function in a block, the one that is asked for first stands. -/
theorem patchAts_find (key : Nat × Text) :
    (patchAts blocks).find key =
      ((visits blocks).flatMap (Visit.requests blocks)).lookup key := by
  have folded : patchAts blocks =
      ((visits blocks).flatMap (Visit.requests blocks)).foldl
        (fun calls entry => calls.insertNew entry.1 entry.2) ∅ := by
    rw [List.foldl_flatMap, patchAts]
    congr 1
    funext calls visit
    exact visitInst_eq calls visit
  rw [folded, OrdDict.find_foldl_insertNew]
  rfl

/-- The order in which the pass visits instructions. -/
def Visit.Before (first second : Visit) : Prop :=
  first.block < second.block ∨
    first.block = second.block ∧ first.position < second.position

private theorem zipIdx_increasing {α : Type} (list : List α) :
    list.zipIdx.Pairwise fun first second => first.2 < second.2 := by
  have positions : (list.zipIdx.map Prod.snd).Pairwise (· < ·) := by
    rw [List.zipIdx_map_snd]
    exact List.pairwise_lt_range'
  exact List.pairwise_map.mp positions

theorem visits_increasing : (visits blocks).Pairwise Visit.Before := by
  rw [visits, List.pairwise_flatMap]
  constructor
  · rintro ⟨body, block⟩ -
    rw [List.pairwise_map]
    apply (zipIdx_increasing body.insts).imp
    intro first second increasing
    exact .inr ⟨rfl, increasing⟩
  · apply (zipIdx_increasing blocks).imp
    rintro ⟨body, block⟩ ⟨later, next⟩ increasing visit listed other otherListed
    obtain ⟨inst, -, rfl⟩ := List.mem_map.mp listed
    obtain ⟨otherInst, -, rfl⟩ := List.mem_map.mp otherListed
    exact .inl increasing

theorem mem_visits {visit : Visit} :
    visit ∈ visits blocks ↔ instAt blocks visit.block visit.position = some visit.inst := by
  obtain ⟨block, position, inst⟩ := visit
  simp only [visits, List.mem_flatMap, List.mem_map, Prod.exists, Visit.mk.injEq,
    List.mem_zipIdx_iff_getElem?, instAt, Option.bind_eq_some_iff]
  constructor
  · rintro ⟨body, at', found, inst', position', foundInst, rfl, rfl, rfl⟩
    exact ⟨body, found, foundInst⟩
  · rintro ⟨body, found, foundInst⟩
    exact ⟨body, block, found, inst, position, foundInst, rfl, rfl, rfl⟩

/-- What an instruction asks for, for a function that is to be announced. -/
theorem mem_requests (announced : Announced name) {visit : Visit} {stop : Nat}
    (listed : visit ∈ visits blocks) :
    ((block, name), stop) ∈ visit.requests blocks ↔
      visit.block = block ∧ visit.position = stop ∧ SeenAt blocks block stop name ∨
        stop = backOf blocks block ∧
          SeenFrom blocks block visit.block visit.position name := by
  have found := mem_visits.mp listed
  obtain ⟨visited, at', inst⟩ := visit
  rw [Visit.requests, List.mem_append, List.mem_filterMap, List.mem_filterMap]
  constructor
  · rintro (⟨value, valueListed, asked⟩ | ⟨⟨value, origin⟩, valueListed, asked⟩)
    · obtain ⟨other, seen, -, same⟩ := request_eq_some.mp asked
      obtain ⟨⟨rfl, rfl⟩, rfl⟩ := Prod.mk.injEq .. ▸ same
      exact .inl ⟨rfl, rfl, inst, found, value, valueListed, seen⟩
    · obtain ⟨other, seen, -, same⟩ := request_eq_some.mp asked
      obtain ⟨⟨rfl, rfl⟩, rfl⟩ := Prod.mk.injEq .. ▸ same
      exact .inr ⟨rfl, inst, found, value, valueListed, seen⟩
  · rintro (⟨rfl, rfl, seenInst, seenFound, value, valueListed, seen⟩ |
      ⟨rfl, seenInst, seenFound, value, valueListed, seen⟩)
    · obtain rfl := Option.some.inj (found.symm.trans seenFound)
      exact .inl ⟨value, valueListed,
        request_eq_some.mpr ⟨name, seen, announced.notCtorDtor, rfl⟩⟩
    · obtain rfl := Option.some.inj (found.symm.trans seenFound)
      exact .inr ⟨(value, block), valueListed,
        request_eq_some.mpr ⟨name, seen, announced.notCtorDtor, rfl⟩⟩

/-- An instruction that sees a function in its operands is no phi. -/
theorem not_seenAt_and_seenFrom {next : Nat} {other : Text}
    (seen : SeenAt blocks block position name) :
    ¬ SeenFrom blocks next block position other := by
  rintro ⟨inst, found, value, listed, -⟩
  obtain ⟨seenInst, seenFound, seenValue, seenListed, -⟩ := seen
  obtain rfl := Option.some.inj (found.symm.trans seenFound)
  cases inst with
  | phi incoming => exact nomatch seenListed
  | _ => exact nomatch listed

/-- The instruction that asks first, when any does. -/
theorem lookup_first {α κ ν : Type} [BEq κ] [LawfulBEq κ] {list : List α}
    {entries : α → List (κ × ν)} {key : κ} {value : ν}
    (found : (list.flatMap entries).lookup key = some value) :
    ∃ early item late, list = early ++ item :: late ∧ (key, value) ∈ entries item ∧
      ∀ other ∈ early, ∀ entry ∈ entries other, entry.1 ≠ key := by
  induction list with
  | nil => cases found
  | cons item rest inductionHypothesis =>
      rw [List.flatMap_cons, List.lookup_append] at found
      cases here : (entries item).lookup key with
      | some first =>
          rw [here, Option.some_or, Option.some.injEq] at found
          obtain ⟨before, behind, shape, -⟩ := List.lookup_eq_some_iff.mp (found ▸ here)
          exact ⟨[], item, rest, rfl, shape ▸ List.mem_append_right _ List.mem_cons_self,
            by rintro _ ⟨⟩⟩
      | none =>
          rw [here, Option.none_or] at found
          obtain ⟨early, first, late, shape, asks, silent⟩ := inductionHypothesis found
          refine ⟨item :: early, first, late, congrArg (item :: ·) shape, asks, ?_⟩
          intro other listed entry entryListed same
          rcases List.mem_cons.mp listed with rfl | inEarly
          · have differs := List.lookup_eq_none_iff.mp here entry entryListed
            rw [same, bne_self_eq_false] at differs
            cases differs
          · exact silent other inEarly entry entryListed same

/-- An instruction is before, at or behind every other. -/
theorem visits_compare {early late : List Visit} {item visit : Visit}
    (shape : visits blocks = early ++ item :: late) (listed : visit ∈ visits blocks) :
    visit ∈ early ∨ visit = item ∨ item.Before visit := by
  have increasing := @visits_increasing blocks
  rw [shape, List.pairwise_append, List.pairwise_cons] at increasing
  rw [shape, List.mem_append, List.mem_cons] at listed
  rcases listed with inEarly | same | inLate
  · exact .inl inEarly
  · exact .inr (.inl same)
  · exact .inr (.inr (increasing.2.1.1 visit inLate))

/-- A function that is seen has a call in the block. -/
theorem exists_find (announced : Announced name)
    (seen : (∃ at', SeenAt blocks block at' name) ∨
      ∃ next at', SeenFrom blocks block next at' name) :
    ∃ stop, (patchAts blocks).find (block, name) = some stop := by
  rw [← Option.isSome_iff_exists, patchAts_find, List.lookup_isSome_iff]
  rcases seen with ⟨at', seen⟩ | ⟨next, at', seen⟩
  · obtain ⟨inst, found, -⟩ := id seen
    have listed : (⟨block, at', inst⟩ : Visit) ∈ visits blocks := mem_visits.mpr found
    exact ⟨((block, name), at'), List.mem_flatMap.mpr ⟨_, listed,
      (mem_requests announced listed).mpr (.inl ⟨rfl, rfl, seen⟩)⟩, BEq.rfl⟩
  · obtain ⟨inst, found, -⟩ := id seen
    have listed : (⟨next, at', inst⟩ : Visit) ∈ visits blocks := mem_visits.mpr found
    exact ⟨((block, name), backOf blocks block), List.mem_flatMap.mpr ⟨_, listed,
      (mem_requests announced listed).mpr (.inr ⟨rfl, seen⟩)⟩, BEq.rfl⟩

/-- The call of a block, and the instruction that asked for it first. -/
theorem find_first {stop : Nat} (announced : Announced name)
    (found : (patchAts blocks).find (block, name) = some stop) :
    (SeenAt blocks block stop name ∧
      (∀ earlier, SeenAt blocks block earlier name → stop ≤ earlier) ∧
      ∀ next at', SeenFrom blocks block next at' name →
        block < next ∨ block = next ∧ stop < at') ∨
    stop = backOf blocks block ∧ ∃ next at', SeenFrom blocks block next at' name ∧
      ∀ earlier, SeenAt blocks block earlier name →
        next < block ∨ next = block ∧ at' < earlier := by
  rw [patchAts_find] at found
  obtain ⟨early, first, late, shape, asks, silent⟩ := lookup_first found
  have listed : first ∈ visits blocks := by
    rw [shape]
    exact List.mem_append_right _ List.mem_cons_self
  -- whoever else asks is not before the first
  have behind : ∀ (visit : Visit) (other : Nat), visit ∈ visits blocks →
      ((block, name), other) ∈ visit.requests blocks →
        visit = first ∨ first.Before visit := by
    intro visit other visited otherAsks
    rcases visits_compare shape visited with inEarly | later
    · exact absurd rfl (silent visit inEarly _ otherAsks)
    · exact later
  have own : ∀ earlier, SeenAt blocks block earlier name → ∃ inst,
      ⟨block, earlier, inst⟩ = first ∨ first.Before ⟨block, earlier, inst⟩ := by
    intro earlier seen
    obtain ⟨inst, found, -⟩ := id seen
    have visited : (⟨block, earlier, inst⟩ : Visit) ∈ visits blocks := mem_visits.mpr found
    exact ⟨inst, behind _ _ visited
      ((mem_requests announced visited).mpr (.inl ⟨rfl, rfl, seen⟩))⟩
  have phi : ∀ next at', SeenFrom blocks block next at' name → ∃ inst,
      ⟨next, at', inst⟩ = first ∨ first.Before ⟨next, at', inst⟩ := by
    intro next at' seen
    obtain ⟨inst, found, -⟩ := id seen
    have visited : (⟨next, at', inst⟩ : Visit) ∈ visits blocks := mem_visits.mpr found
    exact ⟨inst, behind _ _ visited
      ((mem_requests announced visited).mpr (.inr ⟨rfl, seen⟩))⟩
  rcases (mem_requests announced listed).mp asks with ⟨isBlock, isStop, seen⟩ | ⟨isBack, seen⟩
  · refine .inl ⟨seen, fun earlier seenAt => ?_, fun next at' fromPhi => ?_⟩
    · obtain ⟨inst, same | later⟩ := own earlier seenAt
      · rw [← isStop, ← same]
      · simp only [Visit.Before, isBlock, isStop] at later
        omega
    · obtain ⟨inst, same | later⟩ := phi next at' fromPhi
      · rw [← isStop, ← isBlock, ← same] at seen
        exact absurd fromPhi (not_seenAt_and_seenFrom seen)
      · rw [Visit.Before, isBlock, isStop] at later
        exact later
  · refine .inr ⟨isBack, first.block, first.position, seen, fun earlier seenAt => ?_⟩
    obtain ⟨inst, same | later⟩ := own earlier seenAt
    · rw [← same] at seen
      exact absurd seen (not_seenAt_and_seenFrom seenAt)
    · exact later

/-- A call stands in front of a block's last instruction or further ahead. -/
theorem find_le_back {stop : Nat} (announced : Announced name)
    (found : (patchAts blocks).find (block, name) = some stop) :
    stop ≤ backOf blocks block := by
  rcases find_first announced found with ⟨⟨inst, at', -⟩, -, -⟩ | ⟨isBack, -⟩
  · obtain ⟨body, isBody, inBody⟩ := Option.bind_eq_some_iff.mp at'
    obtain ⟨below, -⟩ := List.getElem?_eq_some_iff.mp inBody
    rw [backOf, isBody]
    exact Nat.le_sub_one_of_lt below
  · exact Nat.le_of_eq isBack

/-- A call stands in front of a position exactly when its function is seen in time. -/
theorem find_le_iff (announced : Announced name)
    (inBlock : position ≤ backOf blocks block) :
    (∃ stop ≤ position, (patchAts blocks).find (block, name) = some stop) ↔
      SeenInTime blocks block position name := by
  constructor
  · rintro ⟨stop, below, found⟩
    rcases find_first announced found with ⟨seen, -, first⟩ | ⟨rfl, next, at', seen, -⟩
    · exact .inl ⟨stop, below, seen, first⟩
    · exact .inr ⟨Nat.le_antisymm inBlock below, next, at', seen⟩
  · rintro (⟨earlier, below, seen, first⟩ | ⟨rfl, next, at', seen⟩)
    · obtain ⟨stop, found⟩ := exists_find announced (.inl ⟨earlier, seen⟩)
      refine ⟨stop, ?_, found⟩
      rcases find_first announced found with ⟨-, least, -⟩ | ⟨-, next, at', fromPhi, phiFirst⟩
      · exact Nat.le_trans (least earlier seen) below
      · have phiLater := first next at' fromPhi
        have phiEarlier := phiFirst earlier seen
        omega
    · obtain ⟨stop, found⟩ := exists_find announced (.inr ⟨next, at', seen⟩)
      exact ⟨stop, find_le_back announced found, found⟩

end Requests

section Layout

variable {calls : PatchAts} {block start : Nat} {inst : Inst} {insts : List Inst}
  {name : Text}

theorem patchAt_mem_patchAtsBefore :
    .patchAt name ∈ patchAtsBefore calls block start ↔
      calls.find (block, name) = some start := by
  rw [patchAtsBefore, List.mem_filterMap, OrdDict.find_eq_some]
  constructor
  · rintro ⟨⟨⟨other, callee⟩, stop⟩, listed, stands⟩
    rw [Option.ite_none_right_eq_some] at stands
    obtain ⟨⟨rfl, rfl⟩, same⟩ := stands
    rw [← Emitted.patchAt.inj (Option.some.inj same)]
    exact listed
  · intro listed
    exact ⟨((block, name), start), listed, if_pos ⟨rfl, rfl⟩⟩

theorem inst_not_mem_patchAtsBefore : .inst inst ∉ patchAtsBefore calls block start := by
  rw [patchAtsBefore, List.mem_filterMap]
  rintro ⟨entry, -, stands⟩
  rw [Option.ite_none_right_eq_some] at stands
  exact nomatch stands.2

/-- A block with its calls, from an instruction on. -/
def patchedFrom (calls : PatchAts) (block start : Nat) (insts : List Inst) :
    List Emitted :=
  (insts.zipIdx start).flatMap fun (inst, position) =>
    patchAtsBefore calls block position ++ [.inst inst]

/-- What is in front of the instruction behind `insts`. -/
def patchedFront (calls : PatchAts) (block start : Nat) (insts : List Inst) :
    List Emitted :=
  patchedFrom calls block start insts ++ patchAtsBefore calls block (start + insts.length)

theorem patchAt_mem_patchedFront :
    .patchAt name ∈ patchedFront calls block 0 insts ↔
      ∃ stop ≤ insts.length, calls.find (block, name) = some stop := by
  rw [patchedFront, List.mem_append, patchAt_mem_patchAtsBefore, patchedFrom,
    List.mem_flatMap, Nat.zero_add]
  constructor
  · rintro (⟨⟨inst, position⟩, listed, member⟩ | found)
    · rcases List.mem_append.mp member with inFront | isInst
      · have below := List.snd_lt_of_mem_zipIdx listed
        exact ⟨position, Nat.le_of_lt below, patchAt_mem_patchAtsBefore.mp inFront⟩
      · exact nomatch List.mem_singleton.mp isInst
    · exact ⟨insts.length, Nat.le_refl _, found⟩
  · rintro ⟨stop, below, found⟩
    rcases Nat.lt_or_eq_of_le below with inside | rfl
    · left
      refine ⟨(insts[stop], stop), ?_, ?_⟩
      · exact List.mem_zipIdx_iff_getElem?.mpr (List.getElem?_eq_getElem inside)
      · exact List.mem_append_left _ (patchAt_mem_patchAtsBefore.mpr found)
    · exact .inr found

theorem patchedFrom_append (before after : List Inst) :
    patchedFrom calls block start (before ++ inst :: after) =
      patchedFront calls block start before ++
        .inst inst :: patchedFrom calls block (start + before.length + 1) after := by
  simp only [patchedFront, patchedFrom, List.zipIdx_append, List.zipIdx_cons,
    List.flatMap_append, List.flatMap_cons, List.append_assoc, List.singleton_append]

theorem patchedFrom_cons (first : Inst) (rest : List Inst) :
    patchedFrom calls block start (first :: rest) = patchAtsBefore calls block start ++
      .inst first :: patchedFrom calls block (start + 1) rest := by
  simp only [patchedFrom, List.zipIdx_cons, List.flatMap_cons, List.append_assoc,
    List.singleton_append]

theorem patchedFront_cons (first : Inst) (rest : List Inst) :
    patchedFront calls block start (first :: rest) = patchAtsBefore calls block start ++
      .inst first :: patchedFront calls block (start + 1) rest := by
  simp only [patchedFront, patchedFrom_cons, List.append_assoc, List.cons_append,
    List.length_cons, Nat.add_assoc, Nat.add_comm 1]

/-- An instruction behind the pass is one that was there. -/
theorem patchedFrom_eq_append {early late : List Emitted}
    (shape : patchedFrom calls block start insts = early ++ .inst inst :: late) :
    ∃ before after, insts = before ++ inst :: after ∧
      early = patchedFront calls block start before ∧
      late = patchedFrom calls block (start + before.length + 1) after := by
  induction insts generalizing start early with
  | nil => exact absurd shape.symm (List.append_ne_nil_of_right_ne_nil _ (List.cons_ne_nil _ _))
  | cons first rest inductionHypothesis =>
      have atFirst : ∀ {early}, early = patchAtsBefore calls block start →
          Emitted.inst first :: patchedFrom calls block (start + 1) rest =
            .inst inst :: late →
          ∃ before after, first :: rest = before ++ inst :: after ∧
            early = patchedFront calls block start before ∧
            late = patchedFrom calls block (start + before.length + 1) after := by
        rintro early rfl same
        obtain ⟨sameInst, rfl⟩ := List.cons.inj same
        obtain rfl := Emitted.inst.inj sameInst
        exact ⟨[], rest, rfl, rfl, rfl⟩
      rw [patchedFrom_cons] at shape
      rcases List.append_eq_append_iff.mp shape with
        ⟨between, rfl, behind⟩ | ⟨between, front, behind⟩
      · cases between with
        | nil => exact atFirst (List.append_nil _) behind
        | cons head tail =>
            obtain ⟨rfl, later⟩ := List.cons.inj behind
            obtain ⟨before, after, rfl, rfl, rfl⟩ := inductionHypothesis later
            refine ⟨first :: before, after, rfl, (patchedFront_cons first before).symm, ?_⟩
            rw [List.length_cons, Nat.add_assoc start, Nat.add_comm 1]
      · cases between with
        | nil => exact atFirst (List.append_nil early ▸ front).symm behind.symm
        | cons head tail =>
            obtain ⟨rfl, -⟩ := List.cons.inj behind
            apply (@inst_not_mem_patchAtsBefore calls block start inst).elim
            rw [front]
            exact List.mem_append_right _ List.mem_cons_self

end Layout

section Announcements

variable {m : IrModule} {blocks : List BasicBlock} {path : List Nat}
  {block position : Nat} {inst : Inst} {name : Text} {early late : List Emitted}

/-- The calls that are in front of the instruction at a position. -/
def CallsBefore (m : IrModule) (blocks : List BasicBlock) (block position : Nat)
    (early : List Emitted) : Prop :=
  ∀ name, Announced name → (.patchAt name ∈ early ↔
    "__patch_at".toList ∉ m.symbols ∧ SeenInTime blocks block position name)

theorem backOf_eq {body : BasicBlock} (found : blocks[block]? = some body) :
    backOf blocks block = body.insts.length - 1 := by
  rw [backOf, found]

theorem position_le_back (found : instAt blocks block position = some inst) :
    position ≤ backOf blocks block := by
  obtain ⟨body, isBody, inBody⟩ := Option.bind_eq_some_iff.mp found
  obtain ⟨below, -⟩ := List.getElem?_eq_some_iff.mp inBody
  rw [backOf_eq isBody]
  exact Nat.le_sub_one_of_lt below

/-- In front of the last instruction every function that is seen has its call. -/
theorem seenInTime_back (announced : Announced name) :
    SeenInTime blocks block (backOf blocks block) name ↔
      (∃ at', SeenAt blocks block at' name) ∨
        ∃ next at', SeenFrom blocks block next at' name := by
  constructor
  · rintro (⟨earlier, -, seen, -⟩ | ⟨-, next, at', seen⟩)
    · exact .inl ⟨earlier, seen⟩
    · exact .inr ⟨next, at', seen⟩
  · intro seen
    obtain ⟨stop, found⟩ := exists_find announced seen
    exact (find_le_iff announced (Nat.le_refl _)).mp
      ⟨stop, find_le_back announced found, found⟩

/-- A block behind the pass. -/
def emittedBlock (m : IrModule) (blocks : List BasicBlock) (block : Nat)
    (insts : List Inst) : List Emitted :=
  if "__patch_at".toList ∈ m.symbols then insts.map Emitted.inst
  else patchedFrom (patchAts blocks) block 0 insts

/-- What is in front of the instruction behind `insts`, behind the pass. -/
def emittedFront (m : IrModule) (blocks : List BasicBlock) (block : Nat)
    (insts : List Inst) : List Emitted :=
  if "__patch_at".toList ∈ m.symbols then insts.map Emitted.inst
  else patchedFront (patchAts blocks) block 0 insts

theorem runOnFunction_block {body : BasicBlock} (found : blocks[block]? = some body) :
    (runOnFunction m blocks)[block]? = some (emittedBlock m blocks block body.insts) := by
  rw [runOnFunction, emittedBlock]
  by_cases declared : "__patch_at".toList ∈ m.symbols
  · rw [if_pos declared, if_pos declared, List.getElem?_map, found]
    rfl
  · rw [if_neg declared, if_neg declared, List.getElem?_map, List.getElem?_zipIdx, found]
    simp only [Option.map_some, Nat.zero_add]
    rfl

theorem runOnFunction_length : (runOnFunction m blocks).length = blocks.length := by
  rw [runOnFunction]
  split
  · exact List.length_map _
  · rw [List.length_map, List.length_zipIdx]

/-- The instructions of a block stand where they stood, with calls between them. -/
theorem emittedBlock_append (before after : List Inst) :
    ∃ late, emittedBlock m blocks block (before ++ inst :: after) =
        emittedFront m blocks block before ++ .inst inst :: late ∧
      (after = [] → late = []) := by
  rw [emittedBlock, emittedFront]
  by_cases declared : "__patch_at".toList ∈ m.symbols
  · refine ⟨after.map Emitted.inst, ?_, ?_⟩
    · rw [if_pos declared, if_pos declared, List.map_append, List.map_cons]
    · rintro rfl
      rfl
  · refine ⟨patchedFrom (patchAts blocks) block (0 + before.length + 1) after, ?_, ?_⟩
    · rw [if_neg declared, if_neg declared, patchedFrom_append]
    · rintro rfl
      rfl

/-- What stands behind the pass was there. -/
theorem emittedBlock_split {insts : List Inst}
    (shape : emittedBlock m blocks block insts = early ++ .inst inst :: late) :
    ∃ before after, insts = before ++ inst :: after ∧
      early = emittedFront m blocks block before ∧ (late = [] → after = []) := by
  rw [emittedBlock] at shape
  simp only [emittedFront]
  by_cases declared : "__patch_at".toList ∈ m.symbols
  · rw [if_pos declared] at shape
    obtain ⟨before, behind, rfl, rfl, mapped⟩ := List.map_eq_append_iff.mp shape
    obtain ⟨same, after, rfl, isInst, rfl⟩ := List.map_eq_cons_iff.mp mapped
    obtain rfl := Emitted.inst.inj isInst
    exact ⟨before, after, rfl, (if_pos declared).symm, List.map_eq_nil_iff.mp⟩
  · rw [if_neg declared] at shape
    obtain ⟨before, after, rfl, rfl, rfl⟩ := patchedFrom_eq_append shape
    refine ⟨before, after, rfl, (if_neg declared).symm, fun empty => ?_⟩
    cases after with
    | nil => rfl
    | cons first rest =>
        rw [patchedFrom_cons] at empty
        exact absurd empty (List.append_ne_nil_of_right_ne_nil _ (List.cons_ne_nil _ _))

/-- Which calls are in front of an instruction. -/
theorem callsBefore_front {body : BasicBlock} {before after : List Inst}
    (found : blocks[block]? = some body) (shape : body.insts = before ++ inst :: after) :
    CallsBefore m blocks block before.length (emittedFront m blocks block before) := by
  intro name announced
  rw [emittedFront]
  by_cases declared : "__patch_at".toList ∈ m.symbols
  · rw [if_pos declared]
    constructor
    · intro member
      obtain ⟨inst, -, same⟩ := List.mem_map.mp member
      exact nomatch same
    · rintro ⟨free, -⟩
      exact absurd declared free
  · rw [if_neg declared, patchAt_mem_patchedFront, find_le_iff announced (by
      rw [backOf_eq found, shape, List.length_append, List.length_cons]
      omega)]
    exact (and_iff_right declared).symm

/-- Where an instruction stands behind the pass. -/
theorem stands_of_instAt (found : instAt blocks block position = some inst) :
    ∃ early late, (runOnFunction m blocks)[block]? = some (early ++ .inst inst :: late) ∧
      CallsBefore m blocks block position early ∧
      (position = backOf blocks block → late = []) := by
  obtain ⟨body, isBody, inBody⟩ := Option.bind_eq_some_iff.mp found
  obtain ⟨below, isInst⟩ := List.getElem?_eq_some_iff.mp inBody
  obtain ⟨before, after, shape, rfl⟩ :
      ∃ before after, body.insts = before ++ inst :: after ∧ before.length = position :=
    ⟨body.insts.take position, body.insts.drop (position + 1), by
      rw [← isInst, List.getElem_cons_drop, List.take_append_drop],
      List.length_take_of_le (Nat.le_of_lt below)⟩
  obtain ⟨late, emitted, lastOf⟩ :=
    @emittedBlock_append m blocks block inst before after
  rw [runOnFunction_block isBody, shape, emitted]
  refine ⟨_, late, rfl, callsBefore_front isBody shape, fun isBack => lastOf ?_⟩
  rw [backOf_eq isBody, shape, List.length_append, List.length_cons] at isBack
  exact List.eq_nil_of_length_eq_zero (by omega)

/-- Where an instruction behind the pass stood. -/
theorem instAt_of_stands
    (stands : (runOnFunction m blocks)[block]? = some (early ++ .inst inst :: late)) :
    ∃ position, instAt blocks block position = some inst ∧
      CallsBefore m blocks block position early ∧
      (late = [] → position = backOf blocks block) := by
  obtain ⟨below, -⟩ := List.getElem?_eq_some_iff.mp stands
  rw [runOnFunction_length] at below
  obtain ⟨body, found⟩ : ∃ body, blocks[block]? = some body :=
    ⟨blocks[block], List.getElem?_eq_getElem below⟩
  rw [runOnFunction_block found, Option.some.injEq] at stands
  obtain ⟨before, after, shape, rfl, lastOf⟩ := emittedBlock_split stands
  refine ⟨before.length, ?_, callsBefore_front found shape, fun isLast => ?_⟩
  · rw [instAt, found, Option.bind_some, shape]
    simp
  · rw [backOf_eq found, shape, lastOf isLast]
    simp

theorem IsPath.inside {first rest : List Nat} {next : Nat} (isPath : IsPath blocks path)
    (shape : path = first ++ block :: next :: rest) :
    ∃ inst, instAt blocks block (backOf blocks block) = some inst := by
  obtain ⟨-, ⟨body, found, -⟩, -⟩ :=
    List.isChain_append_cons_cons.mp (shape ▸ isPath.edges)
  have positive := List.length_pos_of_ne_nil body.nonempty
  refine ⟨body.insts[body.insts.length - 1], ?_⟩
  rw [instAt, backOf_eq found, found, Option.bind_some]
  exact List.getElem?_eq_getElem (by omega)

/-- The pass announces what the code lets it see in time, on every path. -/
theorem covered_announces (isPath : IsPath blocks path) (covered : CoveredOn m blocks path) :
    AnnouncedOn (runOnFunction m blocks) path where
  uses := by
    intro block onPath early inst late stands name announced takes
    obtain ⟨position, found, calls, -⟩ := instAt_of_stands stands
    exact (calls name announced).mpr
      (covered.uses block onPath position inst found name announced takes)
  edges := by
    intro first block next rest shape body incoming value isBody phi listed name
      announced takes
    obtain ⟨early, late, rfl⟩ := List.append_of_mem phi
    obtain ⟨position, found, -, -⟩ := instAt_of_stands isBody
    obtain ⟨free, seen⟩ := covered.edges first block next rest shape position incoming value
      found listed name announced takes
    obtain ⟨last, atBack⟩ := isPath.inside shape
    obtain ⟨front, behind, stands, calls, isLast⟩ := stands_of_instAt (m := m) atBack
    rw [isLast rfl] at stands
    exact ⟨front, last, stands,
      (calls name announced).mpr ⟨free, (seenInTime_back announced).mpr seen⟩⟩

/-- What is announced was seen in time. -/
theorem announced_covers (announces : AnnouncedOn (runOnFunction m blocks) path) :
    CoveredOn m blocks path where
  uses := by
    intro block onPath position inst found name announced takes
    obtain ⟨early, late, stands, calls, -⟩ := stands_of_instAt (m := m) found
    exact (calls name announced).mp
      (announces.uses block onPath early inst late stands name announced takes)
  edges := by
    intro first block next rest shape position incoming value found listed name
      announced takes
    obtain ⟨early, late, stands, -, -⟩ := stands_of_instAt (m := m) found
    obtain ⟨front, last, atBack, called⟩ := announces.edges first block next rest shape _
      incoming value stands (List.mem_append_right _ List.mem_cons_self) listed name
      announced takes
    obtain ⟨back, -, calls, isLast⟩ := instAt_of_stands atBack
    obtain ⟨free, inTime⟩ := (calls name announced).mp called
    rw [isLast rfl] at inTime
    exact ⟨free, (seenInTime_back announced).mp inTime⟩

/--
On a path through a function, every address is announced before it is taken if and only
if the pass may run and sees each in time.
-/
theorem announcedOn_iff (m : IrModule) (isPath : IsPath blocks path) :
    AnnouncedOn (runOnFunction m blocks) path ↔ CoveredOn m blocks path :=
  ⟨announced_covers, covered_announces isPath⟩

end Announcements

section Loop

/-- A function that stores the address of another one and returns. -/
def storingFunction : List BasicBlock := [
  ⟨[.store (some (.function ['f'])), .ret none], [], by decide⟩]

theorem storingFunction_path : IsPath storingFunction [0] :=
  ⟨rfl, .singleton 0⟩

theorem storingFunction_covered : CoveredOn ⟨[], [storingFunction]⟩ storingFunction [0] where
  uses := by
    intro block onPath position inst found name announced takes
    obtain rfl := List.mem_singleton.mp onPath
    refine ⟨(fun never => nomatch never), ?_⟩
    obtain ⟨operand, listed, constant, rfl, addressed⟩ := takes
    match position, found with
    | 0, rfl =>
        obtain rfl := Option.some.inj (List.mem_singleton.mp listed)
        have isName : name = ['f'] := by
          cases addressed with
          | pointer points =>
              cases points
              rfl
          | element never => exact nomatch never
        rw [isName]
        refine .inl ⟨0, Nat.le_refl 0, ⟨_, rfl, _, List.mem_cons_self, by decide⟩, ?_⟩
        rintro next at' ⟨inst, phiFound, value, incoming, -⟩
        match next, at', phiFound with
        | 0, 0, rfl => exact nomatch incoming
        | 0, 1, rfl => exact nomatch incoming
    | 1, rfl => exact nomatch List.mem_singleton.mp listed
  edges := by
    intro first block next rest shape
    have lengths := congrArg List.length shape
    simp only [List.length_append, List.length_cons, List.length_nil] at lengths
    omega

/-- The store is seen, and no phi comes before it. -/
theorem storingFunction_announced :
    AnnouncedOn (runOnFunction ⟨[], [storingFunction]⟩ storingFunction) [0] :=
  (announcedOn_iff ⟨[], [storingFunction]⟩ storingFunction_path).mpr
    storingFunction_covered

/--
A loop whose phi takes an address on the way back, and whose body stores it: the phi is
visited first, and its call is behind the store.
-/
def loopingFunction : List BasicBlock := [
  ⟨[.other], [1], by decide⟩,
  ⟨[.phi [(none, 0), (some (.function ['f']), 1)], .store (some (.function ['f'])), .other],
    [1, 2], by decide⟩,
  ⟨[.ret none], [], by decide⟩]

/-- The first round of the loop stores an address that is not announced yet. -/
theorem loop_not_announced :
    ¬ ∀ (m : IrModule) (blocks : List BasicBlock) (path : List Nat), blocks ∈ m.functions →
      IsPath blocks path → AnnouncedOn (runOnFunction m blocks) path := by
  intro always
  have announced := always ⟨[], [loopingFunction]⟩ loopingFunction [0, 1]
    List.mem_cons_self ⟨rfl, .cons_cons ⟨_, rfl, by decide⟩ (.singleton 1)⟩
  have stored := announced.uses 1 (by decide)
    [.inst (.phi [(none, 0), (some (.function ['f']), 1)])]
    (.store (some (.function ['f']))) [.patchAt ['f'], .inst .other] rfl ['f']
    ⟨by decide, by decide⟩ ⟨_, List.mem_cons_self, _, rfl, .pointer .function⟩
  exact nomatch List.mem_singleton.mp stored

end Loop

end Mcfi
