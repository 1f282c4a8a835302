/-
  Shading.Ir.Variable — variables, and the store that numbers them.

  A declaration makes a `Var`: the declared attributes together with a number.  Every use of the
  variable carries the same `Var`, so a use knows the variable's type and name, and two uses are of
  one variable exactly if their numbers are equal.  A `Storage` issues the numbers of one
  compilation unit.
-/
import Shading.Ir.Loop
import Shading.Supply
import Shading.Ty.Basic

namespace Shading

/-! ## §1. Attributes -/

/-- How a variable's value comes and goes. -/
inductive Mode where
  | auto
  | uniform
  | input
  | output
  | inout
  | temporary
deriving DecidableEq, Repr, Inhabited

/-- The qualifier that declares the mode; an automatic variable has none. -/
def Mode.qualifier? : Mode → Option String
  | auto => none
  | uniform => some "uniform"
  | input => some "in"
  | output => some "out"
  | inout => some "inout"
  | temporary => some "temporary"

/-- How a value is interpolated between vertices. -/
inductive Interpolation where
  | smooth
  | flat
  | noPerspective
deriving DecidableEq, Repr, Inhabited

/-- The qualifier that declares the interpolation; smooth interpolation has none. -/
def Interpolation.qualifier? : Interpolation → Option String
  | smooth => none
  | flat => some "flat"
  | noPerspective => some "noperspective"

/-- What a declaration says of a variable. -/
structure Variable where
  name : String
  ty : Ty
  centroid : Bool := false
  invariant : Bool := false
  mode : Mode := .auto
  interpolation : Interpolation := .smooth
deriving DecidableEq, Inhabited

/-- The qualifiers of a declaration, in the order in which they are written. -/
def Variable.qualifiers (v : Variable) : List String :=
  (if v.centroid then ["centroid"] else []) ++ (if v.invariant then ["invariant"] else [])
    ++ v.interpolation.qualifier?.toList ++ v.mode.qualifier?.toList

/-- A declared variable. -/
abbrev Var := Numbered Variable

namespace Var

/-- The declared name. -/
abbrev name (v : Var) : String := v.value.name

/-- The declared type. -/
abbrev ty (v : Var) : Ty := v.value.ty

end Var

/-! ## §2. Storage -/

/-- What a compilation unit has numbered: its variables, its loops, and its struct and function
    types. -/
structure Storage where
  vars : Supply := .full
  loops : Supply := .full
  types : Supply := .full
deriving DecidableEq, Repr, Inhabited

namespace Storage

/-- Makes a variable with these attributes. -/
def declare (s : Storage) (v : Variable) : Var × Storage :=
  let (v, vars) := s.vars.number v
  (v, { s with vars })

/-- Makes a loop's identity. -/
def newLoop (s : Storage) : LoopId × Storage :=
  let (n, loops) := s.loops.take
  (⟨n⟩, { s with loops })

/-- Makes a struct type, different from every other. -/
def structType (s : Storage) (name : Option String) (fields : List Field) : Ty × Storage :=
  let (serial, types) := s.types.take
  (.struct serial name fields, { s with types })

/-- Makes a function type, different from every other. -/
def functionType (s : Storage) (result : Ty) (parameters : List Ty) : Ty × Storage :=
  let (serial, types) := s.types.take
  (.function serial result parameters, { s with types })

end Storage

end Shading
