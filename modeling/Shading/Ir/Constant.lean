/-
  Shading.Ir.Constant — constant values.

  A constant of a scalar, vector or matrix type keeps its components in a buffer of sixteen, enough
  for the largest matrix; what the given values do not fill is zero.  A constant of an array type is
  the list of its elements.  `Constant.sameValue` compares constants the way the language does:
  types by identity, fractional components by value.
-/
import Shading.Ir.Fault
import Shading.Number.Shortest

namespace Shading

/-! ## §1. Constants -/

/-- The components of a constant, and room for more. -/
abbrev Buffer (α : Type) := Vector α 16

/-- The buffer that begins with the values and goes on with zeros. -/
def Buffer.fill {α : Type} (zero : α) (values : List α) : Buffer α :=
  Vector.ofFn fun i => values.getD i zero

mutual

/-- A constant. -/
structure Constant where
  ty : Ty
  value : ConstantValue

/-- What a constant holds. -/
inductive ConstantValue where
  | float (values : Buffer Single)
  | int (values : Buffer Int32)
  | uint (values : Buffer UInt32)
  | bool (values : Buffer Bool)
  | array (elements : List Constant)

end

/-- One component of a constant. -/
inductive ScalarValue where
  | float (value : Single)
  | int (value : Int32)
  | uint (value : UInt32)
  | bool (value : Bool)
deriving DecidableEq

/-- The component as a number. -/
def ScalarValue.text : ScalarValue → String
  | float value => value.text
  | int value => toString value.toInt
  | uint value => toString value.toNat
  | bool value => if value then "1" else "0"

/-- The component at a place of the buffer. -/
def ConstantValue.component? (value : ConstantValue) (i : Nat) : Option ScalarValue :=
  match value with
  | .float values => values[i]?.map .float
  | .int values => values[i]?.map .int
  | .uint values => values[i]?.map .uint
  | .bool values => values[i]?.map .bool
  | .array _ => none

namespace Constant

/-! ## §2. Making constants -/

/-- May a constant of the type be made from `found` components of the kind? -/
def fits (ty : Ty) (kind : Scalar) (found : Nat) : Bool :=
  ty.base == kind.base && found ≤ ty.components

/-- A constant with fractional components. -/
def float (ty : Ty) (values : List Single) : Except Fault Constant :=
  if fits ty .float values.length then .ok ⟨ty, .float (.fill (.zero _) values)⟩
  else .error (.constantShape ty values.length)

/-- A constant with signed integer components. -/
def int (ty : Ty) (values : List Int32) : Except Fault Constant :=
  if fits ty .int values.length then .ok ⟨ty, .int (.fill 0 values)⟩
  else .error (.constantShape ty values.length)

/-- A constant with unsigned integer components. -/
def uint (ty : Ty) (values : List UInt32) : Except Fault Constant :=
  if fits ty .uint values.length then .ok ⟨ty, .uint (.fill 0 values)⟩
  else .error (.constantShape ty values.length)

/-- A constant with truth values as components. -/
def bool (ty : Ty) (values : List Bool) : Except Fault Constant :=
  if fits ty .bool values.length then .ok ⟨ty, .bool (.fill false values)⟩
  else .error (.constantShape ty values.length)

/-- An array constant: as many elements as the type says, each of its element type. -/
def array (ty : Ty) (elements : List Constant) : Except Fault Constant :=
  match ty with
  | .array element length =>
    if elements.length = length.toNat ∧ elements.all (·.ty = element) then
      .ok ⟨ty, .array elements⟩
    else .error (.constantShape ty elements.length)
  | _ => .error (.constantShape ty elements.length)

/-! ## §3. Components -/

/-- The components of the constant's type; an array constant has none of its own. -/
def components (c : Constant) : List ScalarValue :=
  (List.range c.ty.components).filterMap c.value.component?

/-! ## §4. Equality of values -/

mutual

/-- Are the types the same and the values equal? -/
def sameValue : Constant → Constant → Bool
  | ⟨s, a⟩, ⟨t, b⟩ => s == t && sameContent a b
termination_by structural c => c

/-- Are the values equal? -/
def sameContent : ConstantValue → ConstantValue → Bool
  | .float a, .float b => (a.zip b).all fun (x, y) => x.sameValue y
  | .int a, .int b => a == b
  | .uint a, .uint b => a == b
  | .bool a, .bool b => a == b
  | .array a, .array b => sameElements a b
  | _, _ => false
termination_by structural value => value

/-- Are the elements equal, one by one? -/
def sameElements : List Constant → List Constant → Bool
  | [], [] => true
  | a :: as, b :: bs => sameValue a b && sameElements as bs
  | _, _ => false
termination_by structural elements => elements

end

end Constant

end Shading
