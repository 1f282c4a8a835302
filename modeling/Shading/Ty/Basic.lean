/-
  Shading.Ty.Basic — types of shading-language values.

  A `Ty` is a scalar, vector, matrix or sampler type, one of the two special types `void` and
  `error`, or built from other types.  Equality of types is equality of terms:

      array types     are the same if element and length are
      struct types    are the same only if one declaration made both: each carries a serial number
      function types  likewise
-/
import Shading.Sexp.Layout

namespace Shading

/-! ## §1. The parts of a type -/

/-- What a component is. -/
inductive Scalar where
  | uint
  | int
  | float
  | bool
deriving DecidableEq, Repr, Inhabited

/-- The number of components of a vector, and of rows or columns of a matrix. -/
inductive Size where
  | two
  | three
  | four
deriving DecidableEq, Repr

namespace Size

/-- The size as a number. -/
def toNat : Size → Nat
  | two => 2
  | three => 3
  | four => 4

/-- The size of that number, if there is one. -/
def ofNat? : Nat → Option Size
  | 2 => some two
  | 3 => some three
  | 4 => some four
  | _ => none

end Size

/-- The kind of texture that a sampler reads. -/
inductive SamplerDim where
  | d1
  | d2
  | d3
  | cube
  | rect
  | buffer
deriving DecidableEq, Repr

/-- The properties of a sampler type. -/
structure Sampler where
  dim : SamplerDim
  shadow : Bool
  array : Bool
  result : Scalar
deriving DecidableEq, Repr

mutual

/-- A type. -/
inductive Ty where
  | void
  | error
  | scalar (kind : Scalar)
  | vector (kind : Scalar) (size : Size)
  | matrix (columns rows : Size)
  | sampler (properties : Sampler)
  | array (element : Ty) (length : UInt32)
  | struct (serial : Nat) (name : Option String) (fields : List Field)
  | function (serial : Nat) (result : Ty) (parameters : List Ty)

/-- A field of a struct type. -/
structure Field where
  ty : Ty
  name : String

end

instance : Inhabited Ty := ⟨.error⟩

instance : Inhabited Field := ⟨⟨.error, ""⟩⟩

/-! ## §2. Equality

    A type may hold another many times, as a struct type whose fields have one type does, and the
    whole then has far more leaves than there are types in it.  So two types that stand at one place
    in memory are taken as equal without a look inside, and serial numbers are compared before
    fields.  Types made by one declaration always share their place. -/

namespace Ty

mutual

/-- Are the two types the same? -/
def decEq (a b : Ty) : Decidable (a = b) :=
  withPtrEqDecEq a b fun _ =>
    if h : a.ctorIdx = b.ctorIdx then
      match a, b, h with
      | void, void, _ => isTrue rfl
      | error, error, _ => isTrue rfl
      | scalar k, scalar l, _ => decidable_of_iff (k = l) (by simp)
      | vector k m, vector l n, _ => decidable_of_iff (k = l ∧ m = n) (by simp)
      | matrix c m, matrix d n, _ => decidable_of_iff (c = d ∧ m = n) (by simp)
      | sampler p, sampler q, _ => decidable_of_iff (p = q) (by simp)
      | array a m, array b n, _ =>
        if h : m = n then
          have := decEq a b
          decidable_of_iff (a = b) (by simp [h])
        else isFalse (by simp [h])
      | struct i m as, struct j n bs, _ =>
        if h : i = j ∧ m = n then
          have := decEqFields as bs
          decidable_of_iff (as = bs) (by simp [h])
        else isFalse fun e => h (by simp_all)
      | function i a as, function j b bs, _ =>
        if h : i = j then
          match decEq a b with
          | isTrue g =>
            have := decEqList as bs
            decidable_of_iff (as = bs) (by simp [h, g])
          | isFalse g => isFalse (by simp [g])
        else isFalse (by simp [h])
    else isFalse fun e => h (e ▸ rfl)
termination_by structural a

/-- Are the types the same, one by one? -/
def decEqList (as bs : List Ty) : Decidable (as = bs) :=
  match as, bs with
  | [], [] => isTrue rfl
  | [], _ :: _ => isFalse nofun
  | _ :: _, [] => isFalse nofun
  | a :: as, b :: bs =>
    match decEq a b with
    | isTrue h =>
      have := decEqList as bs
      decidable_of_iff (as = bs) (by simp [h])
    | isFalse h => isFalse (by simp [h])
termination_by structural as

/-- Do the fields have the same type and name? -/
def decEqField (a b : Field) : Decidable (a = b) :=
  match a, b with
  | ⟨a, m⟩, ⟨b, n⟩ =>
    if h : m = n then
      have := decEq a b
      decidable_of_iff (a = b) (by simp [h])
    else isFalse (by simp [h])
termination_by structural a

/-- Are the fields the same, one by one? -/
def decEqFields (as bs : List Field) : Decidable (as = bs) :=
  match as, bs with
  | [], [] => isTrue rfl
  | [], _ :: _ => isFalse nofun
  | _ :: _, [] => isFalse nofun
  | a :: as, b :: bs =>
    match decEqField a b with
    | isTrue h =>
      have := decEqFields as bs
      decidable_of_iff (as = bs) (by simp [h])
    | isFalse h => isFalse (by simp [h])
termination_by structural as

end

instance : DecidableEq Ty := decEq

end Ty

/-! ## §3. Bases -/

/-- The broad kind of a type. -/
inductive Base where
  | uint
  | int
  | float
  | bool
  | sampler
  | struct
  | array
  | function
  | void
  | error
deriving DecidableEq, Repr

namespace Base

/-- The name of the kind. -/
def text : Base → String
  | uint => "uint"
  | int => "int"
  | float => "float"
  | bool => "bool"
  | sampler => "sampler"
  | struct => "struct"
  | array => "array"
  | function => "function"
  | void => "void"
  | error => "error"

/-- The scalar of that name: the kinds that have components. -/
def scalar? : Base → Option Scalar
  | uint => some .uint
  | int => some .int
  | float => some .float
  | bool => some .bool
  | _ => none

/-- Does it count or measure? -/
def isNumeric : Base → Bool
  | uint | int | float => true
  | _ => false

/-- Do its types have components? -/
def isShaped (b : Base) : Bool := b.scalar?.isSome

end Base

/-- The kind of scalars, vectors and matrices with such components. -/
def Scalar.base : Scalar → Base
  | uint => .uint
  | int => .int
  | float => .float
  | bool => .bool

namespace Ty

/-- The kind of a type. -/
def base : Ty → Base
  | void => .void
  | error => .error
  | scalar kind => kind.base
  | vector kind _ => kind.base
  | matrix _ _ => .float
  | sampler _ => .sampler
  | array _ _ => .array
  | struct _ _ _ => .struct
  | function _ _ _ => .function

/-! ## §4. Shapes -/

/-- Is it a scalar type? -/
def isScalar : Ty → Bool
  | scalar _ => true
  | _ => false

/-- Is it a vector type? -/
def isVector : Ty → Bool
  | vector _ _ => true
  | _ => false

/-- Is it a matrix type? -/
def isMatrix : Ty → Bool
  | matrix _ _ => true
  | _ => false

/-- Does it count or measure? -/
def isNumeric (ty : Ty) : Bool := ty.base.isNumeric

/-- Are its components integers? -/
def isInteger (ty : Ty) : Bool := ty.base == .int || ty.base == .uint

/-- Are its components truth values? -/
def isBoolean (ty : Ty) : Bool := ty.base == .bool

/-- The declared number of components of a vector or of a matrix's column; zero otherwise. -/
def vectorElements : Ty → Nat
  | vector _ size => size.toNat
  | matrix _ rows => rows.toNat
  | _ => 0

/-- The declared number of columns of a matrix; zero otherwise. -/
def matrixColumns : Ty → Nat
  | matrix columns _ => columns.toNat
  | _ => 0

/-- How many rows a value has; none if it has no components. -/
def rows : Ty → Nat
  | scalar _ => 1
  | vector _ size => size.toNat
  | matrix _ rows => rows.toNat
  | _ => 0

/-- How many columns a value has; none if it has no components. -/
def columns : Ty → Nat
  | scalar _ | vector _ _ => 1
  | matrix columns _ => columns.toNat
  | _ => 0

/-- How many components a value has. -/
def components (ty : Ty) : Nat := ty.rows * ty.columns

/-- The scalar type, or the vector type of that many components; the error type if there is none. -/
def ofComponents (kind : Scalar) : Nat → Ty
  | 1 => scalar kind
  | 2 => vector kind .two
  | 3 => vector kind .three
  | 4 => vector kind .four
  | _ => error

/-- The type of a matrix's rows; the error type for anything else. -/
def rowType : Ty → Ty
  | matrix columns _ => vector .float columns
  | _ => error

/-- The type of a matrix's columns; the error type for anything else. -/
def columnType : Ty → Ty
  | matrix _ rows => vector .float rows
  | _ => error

/-- The type of a component; the error type if there are none. -/
def scalarType : Ty → Ty
  | scalar kind => scalar kind
  | vector kind _ => scalar kind
  | matrix _ _ => scalar .float
  | _ => error

/-! ## §5. The parts of built types -/

/-- The properties of a sampler type. -/
def sampler? : Ty → Option Sampler
  | sampler properties => some properties
  | _ => none

/-- The element type of an array type. -/
def element? : Ty → Option Ty
  | array element _ => some element
  | _ => none

/-- The fields of a struct type; none for anything else. -/
def fields : Ty → List Field
  | struct _ _ fields => fields
  | _ => []

/-- The type of the first field of that name. -/
def fieldType? (ty : Ty) (name : String) : Option Ty :=
  (ty.fields.find? (·.name == name)).map (·.ty)

/-- The result type of a function type. -/
def result? : Ty → Option Ty
  | function _ result _ => some result
  | _ => none

/-- The parameter types of a function type; none for anything else. -/
def parameters : Ty → List Ty
  | function _ _ parameters => parameters
  | _ => []

/-- The number of elements, fields or parameters; zero for a type that is not built from others. -/
def length : Ty → Nat
  | array _ length => length.toNat
  | struct _ _ fields => fields.length
  | function _ _ parameters => parameters.length
  | _ => 0

end Ty

end Shading
