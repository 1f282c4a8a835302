/-
  Shading.Ir.Fault — why a piece of intermediate representation cannot be made.

  The functions that make rvalues, assignments, loops and jumps check what every consumer relies on,
  and answer with a `Fault` if a check fails.
-/
import Shading.Ir.Loop
import Shading.Ir.Swizzle
import Shading.Operator
import Shading.Ty.Builtin

namespace Shading

/-- A failed check. -/
inductive Fault where
  /-- The text is no swizzle. -/
  | invalidSwizzle (text : String)
  /-- The value has no such component. -/
  | swizzleRange (component : Component) (ty : Ty)
  /-- Values of the type have no components to choose from. -/
  | notSwizzlable (ty : Ty)
  /-- Variables of the type cannot be read. -/
  | notDereferenceable (ty : Ty)
  /-- The type is no sampler type. -/
  | notSampler (ty : Ty)
  /-- Values of the type have no parts to index. -/
  | notIndexable (ty : Ty)
  /-- The index is not an integer. -/
  | badIndex (ty : Ty)
  /-- The type has no such field. -/
  | noSuchField (ty : Ty) (field : String)
  /-- The operator takes another number of operands. -/
  | operandCount (op : Operator) (found : Nat)
  /-- The operator does not compare. -/
  | notComparison (op : Operator)
  /-- The text names components that the assigned value does not have. -/
  | invalidWriteMask (text : String)
  /-- The type cannot hold such values, or not so many. -/
  | constantShape (ty : Ty) (found : Nat)
  /-- There is no loop around the jump. -/
  | noEnclosingLoop (mode : JumpMode)
deriving DecidableEq

/-- The fault in words. -/
def Fault.message : Fault → String
  | invalidSwizzle text => "invalid swizzle '" ++ text ++ "'"
  | swizzleRange c ty =>
    "swizzle component '" ++ c.letter.toString ++ "' is out of range for " ++ ty.text
  | notSwizzlable ty => "cannot swizzle a value of type " ++ ty.text
  | notDereferenceable ty => "cannot dereference a value of type " ++ ty.text
  | notSampler ty => "cannot sample through a value of type " ++ ty.text
  | notIndexable ty => "cannot index a value of type " ++ ty.text
  | badIndex ty => "array index must be an integer scalar, found " ++ ty.text
  | noSuchField ty field => "type " ++ ty.text ++ " has no field named '" ++ field ++ "'"
  | operandCount op found =>
    "operator '" ++ op.name ++ "' takes " ++ toString op.arity ++ " operand(s), found "
      ++ toString found
  | notComparison op => "'" ++ op.name ++ "' is not a comparison operator"
  | invalidWriteMask text => "invalid write mask '" ++ text ++ "'"
  | constantShape ty found =>
    "a constant of type " ++ ty.text ++ " cannot hold " ++ toString found ++ " value(s)"
  | noEnclosingLoop mode => "'" ++ mode.name ++ "' used outside of a loop"

end Shading
