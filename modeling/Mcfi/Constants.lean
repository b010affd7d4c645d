import Mcfi.Sections

namespace Mcfi

/-!
# Constants of the compiler's intermediate code

A pass that looks for the addresses of functions sees them as operands: a function
itself, or a function below casts.  `InnerMost` takes the casts off.
-/

/-- The casts that the passes tell apart. -/
inductive CastOpcode where
  | bitCast
  | addrSpaceCast
  | ptrToInt
  | other
  deriving DecidableEq, Repr

/-- A constant; a function without a name has the empty one. -/
inductive Constant where
  | function (name : Text)
  | globalAlias (mayBeOverridden : Bool) (aliasee : Constant)
  | cast (opcode : CastOpcode) (operand : Constant)
  | getElementPtr (hasAllZeroIndices : Bool) (pointer : Constant)
  | vector (operands : List Constant)
  | struct (operands : List Constant)
  | array (operands : List Constant)
  | other
  deriving Repr

namespace Constant

/--
`stripPointerCasts`.  A cast that is no pointer has no pointer below its pointer
casts, so the types need not be looked at.
-/
def stripPointerCasts : Constant → Constant
  | globalAlias false aliasee => aliasee.stripPointerCasts
  | cast .bitCast operand => operand.stripPointerCasts
  | cast .addrSpaceCast operand => operand.stripPointerCasts
  | getElementPtr true pointer => pointer.stripPointerCasts
  | constant => constant

/-- `InnerMost`. -/
def innerMost : Constant → Constant
  | cast opcode operand =>
      match (cast opcode operand).stripPointerCasts, opcode, operand with
      | function name, _, _ => function name
      | _, .ptrToInt, function name => function name
      | _, _, _ => cast opcode operand
  | constant => constant

/-- `isa<Function>(V) && cast<Function>(V)->hasName()`. -/
def namedFunction : Constant → Option Text
  | function name => if name = [] then none else some name
  | _ => none

theorem namedFunction_eq_some {constant : Constant} {name : Text} :
    constant.namedFunction = some name ↔ constant = function name ∧ name ≠ [] := by
  cases constant with
  | function other =>
      rw [namedFunction, function.injEq]
      by_cases empty : other = []
      · rw [if_pos empty]
        exact ⟨(fun never => nomatch never),
          fun ⟨same, named⟩ => absurd (same ▸ empty) named⟩
      · rw [if_neg empty, Option.some.injEq]
        exact ⟨fun same => ⟨same, same ▸ empty⟩, And.left⟩
  | _ => simp [namedFunction]

end Constant

end Mcfi
