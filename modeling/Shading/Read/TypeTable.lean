/-
  Shading.Read.TypeTable — types that are compared by their places.

  Types are terms, and two types are the same one if the terms are equal.  An implementation compares
  places instead: it makes each array type once, for the place of its element type and its length, and
  finds it again when it is asked for; struct and function types are made anew each time.  `TypeTable`
  does that, with the types of the terms beside it, and `TypeTable.readType` reads types with it.
-/
import Shading.Read.Rvalue

namespace Shading

/-- Where a type stands: it is built in, or it was made. -/
inductive Place where
  | builtin (ty : Ty)
  | made (number : Nat)
deriving DecidableEq

/-- A type that was made.  An array type has the place of its element type, and its length. -/
structure Cell where
  ty : Ty
  array? : Option (Place × UInt32)

/-- The types that were made, and the places of the array types. -/
structure TypeTable where
  storage : Storage
  cells : List Cell
  arrays : List ((Place × UInt32) × Place)

namespace TypeTable

/-- The type at a place. -/
def type (t : TypeTable) : Place → Ty
  | .builtin ty => ty
  | .made number => (t.cells[number]?.map (·.ty)).getD .error

/-- Nothing has been made. -/
def start (storage : Storage) : TypeTable := ⟨storage, [], []⟩

/-- The place of an array type.  One that was asked for before is found again. -/
def arrayType (t : TypeTable) (element : Place) (length : UInt32) : Place × TypeTable :=
  match t.arrays.lookup (element, length) with
  | some place => (place, t)
  | none =>
    let place := .made t.cells.length
    (place, { t with
      cells := t.cells ++ [⟨.array (t.type element) length, some (element, length)⟩]
      arrays := ((element, length), place) :: t.arrays })

/-- The place of a type that the storage has just numbered. -/
def add (t : TypeTable) (numbered : Ty × Storage) : Place × TypeTable :=
  (.made t.cells.length,
    { t with storage := numbered.2, cells := t.cells ++ [⟨numbered.1, none⟩] })

/-- The place of a new struct type. -/
def structType (t : TypeTable) (name : Option String) (fields : List (Place × String)) :
    Place × TypeTable :=
  t.add (t.storage.structType name (fields.map fun field => ⟨t.type field.1, field.2⟩))

/-- The place of a new function type. -/
def functionType (t : TypeTable) (result : Place) (parameters : List Place) : Place × TypeTable :=
  t.add (t.storage.functionType (t.type result) (parameters.map t.type))

/-- Reads a type as `readType` does, where names stand for places: the table is asked for each array type,
    once its element type has been read. -/
def readType (env : Env) (names : String → Option Place) (t : TypeTable) :
    Node → Except ReadError (Place × TypeTable)
  | whole@(.symbol name) => do
    let place ← env.require whole (.invalidType name) (names name)
    .ok (place, t)
  | whole@(.list [.symbol "array", element, length]) => do
    let (element, t) ← readType env names t element
    let length ← env.require whole (.expected .arraySize) (arrayLength? length)
    .ok (t.arrayType element length)
  | node => env.fail node (typeProblem node)
termination_by structural node => node

end TypeTable

end Shading
