/-
  Shading.Ir.Swizzle — component letters.

  The components of a vector are called `x`, `y`, `z` and `w`.  A `SwizzleMask` picks one to four of
  them in any order, with repetition; a `WriteMask` is the set of those that an assignment writes.
-/

namespace Shading

/-! ## §1. Letters -/

/-- A component of a vector. -/
inductive Component where
  | x
  | y
  | z
  | w
deriving DecidableEq, Repr, Inhabited

namespace Component

/-- The components in order. -/
def all : List Component := [x, y, z, w]

/-- The letter of a component. -/
def letter : Component → Char
  | x => 'x'
  | y => 'y'
  | z => 'z'
  | w => 'w'

/-- The place of a component in a vector. -/
def index : Component → Nat
  | x => 0
  | y => 1
  | z => 2
  | w => 3

/-- The component of a letter. -/
def ofLetter? : Char → Option Component
  | 'x' => some x
  | 'y' => some y
  | 'z' => some z
  | 'w' => some w
  | _ => none

/-- The components that the letters name, if each of them names one. -/
def ofLetters? (letters : List Char) : Option (List Component) := letters.mapM ofLetter?

end Component

/-! ## §2. Swizzles -/

/-- A choice of one to four components. -/
structure SwizzleMask where
  components : List Component
  nonempty : components ≠ []
  short : components.length ≤ 4
deriving DecidableEq

namespace SwizzleMask

/-- The choice that a text of one to four letters spells. -/
def ofText? (text : String) : Option SwizzleMask :=
  (Component.ofLetters? text.toList).bind fun components =>
    if h : components ≠ [] ∧ components.length ≤ 4 then some ⟨components, h.1, h.2⟩ else none

/-- How many components are chosen. -/
def size (m : SwizzleMask) : Nat := m.components.length

/-- The letters of the choice. -/
def text (m : SwizzleMask) : String := String.ofList (m.components.map (·.letter))

/-- Is the first component alone chosen?  Of a scalar, that is the scalar. -/
def isFirstOnly (m : SwizzleMask) : Bool := m.components == [.x]

end SwizzleMask

/-! ## §3. Write masks -/

/-- A set of components as bits, the first component being the lowest. -/
structure WriteMask where
  bits : UInt8
deriving DecidableEq, Repr, Inhabited

namespace WriteMask

/-- No component. -/
def empty : WriteMask := ⟨0⟩

/-- The bit of a component. -/
def bit (c : Component) : UInt8 := 1 <<< UInt8.ofNat c.index

/-- Is the component in the set? -/
def contains (m : WriteMask) (c : Component) : Bool := m.bits &&& bit c != 0

/-- The set of these components. -/
def ofComponents (cs : List Component) : WriteMask :=
  ⟨cs.foldl (fun bits c => bits ||| bit c) 0⟩

/-- The first `n` components. -/
def first (n : Nat) : WriteMask := ofComponents (Component.all.take n)

/-- The letters of the components in the set, in order. -/
def letters (m : WriteMask) : String :=
  String.ofList ((Component.all.filter m.contains).map (·.letter))

end WriteMask

end Shading
