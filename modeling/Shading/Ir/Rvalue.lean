/-
  Shading.Ir.Rvalue — values that are computed.

  An `Rvalue` is an expression tree.  Every node carries the type of its value; the functions that
  make nodes compute that type and refuse operands that do not go with the node, so a tree that was
  made by them is well typed from the leaves up.
-/
import Shading.Ir.Constant
import Shading.Ir.Variable

namespace Shading

/-! ## §1. Trees -/

/-- Whole-texel offsets of a texture lookup. -/
structure Offsets where
  x : Int8
  y : Int8
  z : Int8
deriving DecidableEq, Inhabited

/-- No offset. -/
def Offsets.zero : Offsets := ⟨0, 0, 0⟩

mutual

/-- A computed value. -/
inductive Rvalue where
  /-- An operator applied to its operands. -/
  | expression (op : Operator) (ty : Ty) (operands : List Rvalue)
  /-- Components chosen from a scalar or vector. -/
  | swizzle (value : Rvalue) (mask : SwizzleMask) (ty : Ty)
  /-- A variable or a part of a value. -/
  | dereference (d : Dereference)
  /-- A constant. -/
  | constant (c : Constant)
  /-- A call of a signature, given by its place among the signatures of the function. -/
  | call (callee : String) (signature : Nat) (ty : Ty) (args : List Rvalue)
  /-- A texture lookup. -/
  | texture (t : Texture)

/-- A variable, or a part of a value that an index or a name picks out. -/
inductive Dereference where
  | var (v : Var)
  | index (base index : Rvalue) (ty : Ty)
  | field (base : Rvalue) (name : String) (ty : Ty)

/-- A texture lookup. -/
structure Texture where
  lookup : Lookup
  ty : Ty
  sampler : Dereference
  coordinate : Rvalue
  offsets : Offsets
  projector : Option Rvalue
  comparator : Option Rvalue

/-- How a lookup chooses the level of detail. -/
inductive Lookup where
  /-- From the neighbouring coordinates. -/
  | plain
  /-- The same, moved by a bias. -/
  | bias (amount : Rvalue)
  /-- As given. -/
  | level (lod : Rvalue)
  /-- From given derivatives. -/
  | gradient (dx dy : Rvalue)
  /-- As given, and one texel is read without filtering. -/
  | fetch (lod : Rvalue)

end

instance : Inhabited Rvalue := ⟨.call "" 0 .error []⟩

/-- The tag of the lookup in the textual form. -/
def Lookup.name : Lookup → String
  | plain => "tex"
  | bias _ => "txb"
  | level _ => "txl"
  | gradient _ _ => "txd"
  | fetch _ => "txf"

/-! ## §2. Types -/

namespace Dereference

/-- The type of the variable or part. -/
def ty : Dereference → Ty
  | var v => v.ty
  | index _ _ ty => ty
  | field _ _ ty => ty

end Dereference

namespace Rvalue

/-- The type of the value. -/
def ty : Rvalue → Ty
  | expression _ ty _ => ty
  | swizzle _ _ ty => ty
  | dereference d => d.ty
  | constant c => c.ty
  | call _ _ ty _ => ty
  | texture t => t.ty

end Rvalue

/-! ## §3. Making nodes -/

/-- The choice of components that a text spells. -/
def SwizzleMask.parse (text : String) : Except Fault SwizzleMask :=
  match ofText? text with
  | some mask => .ok mask
  | none => .error (.invalidSwizzle text)

namespace Rvalue

/-- An operator applied to as many operands as it takes. -/
def mkExpression (op : Operator) (ty : Ty) (operands : List Rvalue) : Except Fault Rvalue :=
  if operands.length = op.arity then .ok (expression op ty operands)
  else .error (.operandCount op operands.length)

/-- Components of a scalar or vector, all of which it has. -/
def mkSwizzle (value : Rvalue) (mask : SwizzleMask) : Except Fault Rvalue :=
  match value.ty with
  | .scalar kind | .vector kind _ =>
    match mask.components.find? (value.ty.rows ≤ ·.index) with
    | some c => .error (.swizzleRange c value.ty)
    | none => .ok (swizzle value mask (.ofComponents kind mask.size))
  | ty => .error (.notSwizzlable ty)

end Rvalue

namespace Dereference

/-- A variable that has a value. -/
def mkVariable (v : Var) : Except Fault Dereference :=
  match v.ty with
  | .void | .function _ _ _ => .error (.notDereferenceable v.ty)
  | _ => .ok (var v)

/-- The type of what an index picks out of a value. -/
def partType? : Ty → Option Ty
  | .array element _ => some element
  | .matrix columns rows => some (Ty.matrix columns rows).columnType
  | .vector kind _ => some (.scalar kind)
  | _ => none

/-- An element of an array, a column of a matrix or a component of a vector; the index has to be an
    integer. -/
def mkIndex (base index : Rvalue) : Except Fault Dereference :=
  match partType? base.ty with
  | none => .error (.notIndexable base.ty)
  | some ty =>
    if index.ty.isScalar && index.ty.isInteger then .ok (.index base index ty)
    else .error (.badIndex index.ty)

/-- A field of a struct value. -/
def mkField (base : Rvalue) (name : String) : Except Fault Dereference :=
  match base.ty.fieldType? name with
  | none => .error (.noSuchField base.ty name)
  | some ty => .ok (field base name ty)

end Dereference

namespace Texture

/-- The type of what a lookup returns: a comparison gives one number, the rest give four. -/
def resultType (s : Sampler) : Ty :=
  if s.shadow then .scalar .float else .ofComponents s.result 4

/-- A lookup through a sampler, without offsets, projection or comparison. -/
def mkTexture (lookup : Lookup) (sampler : Dereference) (coordinate : Rvalue) :
    Except Fault Texture :=
  match sampler.ty.sampler? with
  | none => .error (.notSampler sampler.ty)
  | some properties =>
    .ok ⟨lookup, resultType properties, sampler, coordinate, .zero, none, none⟩

end Texture

/-! ## §4. The variable at the root -/

mutual

/-- The variable that the outermost of nested parts is part of. -/
def Dereference.root? : Dereference → Option Var
  | .var v => some v
  | .index base _ _ => Rvalue.root? base
  | .field base _ _ => Rvalue.root? base
termination_by structural d => d

/-- The variable that a dereference goes back to; anything else goes back to none. -/
def Rvalue.root? : Rvalue → Option Var
  | .dereference d => Dereference.root? d
  | _ => none
termination_by structural r => r

end

end Shading
