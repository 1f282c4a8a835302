/-
  Shading.Ty.Builtin — the types the language comes with, and the text of types.

  `Ty.builtins` lists them in their order.  Their names follow a pattern: a vector's name has the
  letter of its components, a matrix's its columns before its rows, a sampler's the letter of what
  it returns, then what it reads, then `Array`, then `Shadow`.  A built type that has no name is
  written as a list of its parts.
-/
import Shading.Ty.Basic

namespace Shading

/-! ## §1. Names -/

namespace Scalar

/-- The name of the scalar type. -/
def name (kind : Scalar) : String := kind.base.text

/-- The letter that stands for such components in other names. -/
def letter : Scalar → String
  | uint => "u"
  | int => "i"
  | float => ""
  | bool => "b"

end Scalar

/-- The word for the texture that is read. -/
def SamplerDim.word : SamplerDim → String
  | d1 => "1D"
  | d2 => "2D"
  | d3 => "3D"
  | cube => "Cube"
  | rect => "2DRect"
  | buffer => "Buffer"

/-- The name of the sampler type. -/
def Sampler.name (s : Sampler) : String :=
  s.result.letter ++ "sampler" ++ s.dim.word
    ++ (if s.array then "Array" else "") ++ (if s.shadow then "Shadow" else "")

namespace Ty

/-- The name of a type that has one. -/
def name? : Ty → Option String
  | void => some "void"
  | error => some "error"
  | scalar kind => some kind.name
  | vector kind size => some (kind.letter ++ "vec" ++ toString size.toNat)
  | matrix columns rows =>
    some ("mat" ++ toString columns.toNat
      ++ (if columns = rows then "" else "x" ++ toString rows.toNat))
  | sampler properties => some properties.name
  | array _ _ => none
  | struct _ name _ => name
  | function _ _ _ => none

/-! ## §2. Text -/

mutual

/-- The type as a layout: its name, or the list of its parts. -/
def layout : Ty → Layout
  | array element length => .line [.word "array", layout element, .word (toString length.toNat)]
  | struct _ none fields => .line [.word "struct", .line (fieldLayouts fields)]
  | function _ result parameters =>
    .line [.word "function", layout result, .line (layouts parameters)]
  | ty => .word (ty.name?.getD "")
termination_by structural ty => ty

/-- The layouts of the types. -/
def layouts : List Ty → List Layout
  | [] => []
  | ty :: rest => layout ty :: layouts rest
termination_by structural types => types

/-- A field as its type and name. -/
def fieldLayout : Field → Layout
  | ⟨ty, name⟩ => .line [layout ty, .word name]
termination_by structural field => field

/-- The layouts of the fields. -/
def fieldLayouts : List Field → List Layout
  | [] => []
  | field :: rest => fieldLayout field :: fieldLayouts rest
termination_by structural fields => fields

end

/-- The type in words. -/
def text (ty : Ty) : String := ty.layout.text

/-! ## §3. The list of built-in types -/

/-- The scalar type and the vector types with such components. -/
def family (kind : Scalar) : List Ty :=
  [scalar kind, vector kind .two, vector kind .three, vector kind .four]

/-- The matrix types, by columns and then by rows. -/
def matrices : List Ty :=
  [Size.two, .three, .four].flatMap fun columns =>
    [Size.two, .three, .four].map fun rows => matrix columns rows

/-- The sampler types without comparison that return such components. -/
def plainSamplers (result : Scalar) : List Sampler :=
  [⟨.d1, false, false, result⟩, ⟨.d2, false, false, result⟩, ⟨.d3, false, false, result⟩,
    ⟨.cube, false, false, result⟩, ⟨.rect, false, false, result⟩, ⟨.buffer, false, false, result⟩,
    ⟨.d1, false, true, result⟩, ⟨.d2, false, true, result⟩]

/-- The sampler types that compare depths. -/
def shadowSamplers : List Sampler :=
  [⟨.d1, true, false, .float⟩, ⟨.d2, true, false, .float⟩, ⟨.cube, true, false, .float⟩,
    ⟨.rect, true, false, .float⟩, ⟨.d1, true, true, .float⟩, ⟨.d2, true, true, .float⟩]

/-- The samplers that exist. -/
def samplers : List Sampler :=
  plainSamplers .float ++ shadowSamplers ++ plainSamplers .int ++ plainSamplers .uint

/-- All built-in types. -/
def builtins : List Ty :=
  [void, error] ++ family .bool ++ family .int ++ family .uint ++ family .float ++ matrices
    ++ samplers.map sampler

/-- The built-in type of that name. -/
def builtin? (name : String) : Option Ty := builtins.find? (·.name? == some name)

/-! ## §4. Types by shape and by properties -/

/-- A shape that no type can have. -/
inductive ShapeError where
  | vectorSize (n : Nat)
  | matrixSize (n : Nat)
deriving DecidableEq, Repr

/-- The error in words. -/
def ShapeError.message : ShapeError → String
  | vectorSize n => "invalid vector size " ++ toString n
  | matrixSize n => "invalid matrix size " ++ toString n

/-- The type with such components in that many rows and columns; the error type if the language has
    none. -/
def ofShape (base : Base) (rows columns : Nat) : Ty :=
  match base.scalar? with
  | none => error
  | some kind =>
    if columns = 1 then ofComponents kind rows
    else
      match kind, Size.ofNat? columns, Size.ofNat? rows with
      | .float, some columns, some rows => matrix columns rows
      | _, _, _ => error

/-- The type of that shape; rows and columns have to be from one to four. -/
def instance? (base : Base) (rows columns : Nat) : Except ShapeError Ty :=
  if rows = 0 ∨ 4 < rows then .error (.vectorSize rows)
  else if columns = 0 ∨ 4 < columns then .error (.matrixSize columns)
  else .ok (ofShape base rows columns)

/-- The sampler type with these properties, if it exists. -/
def samplerType? (dim : SamplerDim) (shadow array : Bool) (result : Base) : Option Ty :=
  result.scalar?.bind fun result =>
    let properties : Sampler := ⟨dim, shadow, array, result⟩
    if properties ∈ samplers then some (sampler properties) else none

end Ty

end Shading
