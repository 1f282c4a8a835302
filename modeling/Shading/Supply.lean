/-
  Shading.Supply — serial numbers.

  Variables, loops and the types that are told apart by their declaration carry a number that is
  issued once.  A `Supply` issues 0, 1, 2, …; a `Numbered` value is a value together with its
  number, and two of them are the same one if their numbers are.
-/

namespace Shading

/-- A supply of serial numbers, given by how many it has issued. -/
structure Supply where
  issued : Nat
deriving DecidableEq, Repr, Inhabited

/-- A value with its serial number. -/
structure Numbered (α : Type) where
  id : Nat
  value : α
deriving DecidableEq, Repr, Inhabited

namespace Supply

/-- A supply that has issued nothing. -/
def full : Supply := ⟨0⟩

/-- Has nothing been issued? -/
def isFull (s : Supply) : Bool := s.issued == 0

/-- The next number, and the supply without it. -/
def take (s : Supply) : Nat × Supply := (s.issued, ⟨s.issued + 1⟩)

/-- Numbers a value. -/
def number {α : Type} (s : Supply) (value : α) : Numbered α × Supply :=
  (⟨s.take.1, value⟩, s.take.2)

/-- Numbers a list of values from the first to the last. -/
def numberAll {α : Type} (s : Supply) : List α → List (Numbered α) × Supply
  | [] => ([], s)
  | value :: rest =>
    let (first, s) := s.number value
    let (others, s) := s.numberAll rest
    (first :: others, s)

end Supply

namespace Numbered

variable {α : Type}

/-- Is it the same one, whatever it holds? -/
def same (a b : Numbered α) : Bool := a.id == b.id

/-- The number with its mark. -/
def tag (a : Numbered α) : String := "#" ++ toString a.id

end Numbered

end Shading
