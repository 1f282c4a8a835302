/-
  Shading.Glsl.Basic — names and types in shader source.

  Writing a module as source needs a little state: the numbers given to temporaries, and the places
  where a stand-in had to be written because the language has no words for what is there.  The
  functions of this and the following modules return the text they write.
-/
import Shading.Ir.Instruction

namespace Shading

/-! ## §1. Stand-ins -/

/-- What has no source form. -/
inductive Placeholder where
  | errorType
  | anonymousType (ty : Ty)
  | wideCoordinate (components : Nat)
  | partialLoop
  | lookupThrough (ty : Ty)
deriving DecidableEq

/-- What has no source form, in words. -/
def Placeholder.text : Placeholder → String
  | errorType => "the error type"
  | anonymousType ty => "anonymous type " ++ ty.text
  | wideCoordinate components => "a " ++ toString components ++ "-component texture coordinate"
  | partialLoop => "a loop with partial controls"
  | lookupThrough ty => "a lookup through " ++ ty.text

/-- The warning about a stand-in. -/
def Placeholder.message (p : Placeholder) : String :=
  "no source form for " ++ p.text ++ "; printing a placeholder"

/-- How faithful the source is. -/
inductive Fidelity where
  /-- All of it is source. -/
  | exact
  /-- Some of it is stand-ins. -/
  | part
deriving DecidableEq, Repr

/-! ## §2. State -/

/-- The numbers of the temporaries met in a signature, by the variables' numbers. -/
structure Temporaries where
  numbers : List (Nat × Nat) := []
  next : Nat := 1
deriving DecidableEq, Repr

namespace Temporaries

/-- No temporary met. -/
def empty : Temporaries := {}

/-- The number of a temporary, which is the next one if it has none yet. -/
def number (t : Temporaries) (v : Var) : Nat × Temporaries :=
  match t.numbers.lookup v.id with
  | some n => (n, t)
  | none => (t.next, ⟨(v.id, t.next) :: t.numbers, t.next + 1⟩)

end Temporaries

/-- What writing source changes. -/
structure SourceState where
  temporaries : Temporaries := .empty
  /-- The stand-ins written, the latest first. -/
  placeholders : List Placeholder := []

/-- A computation that writes source. -/
abbrev SourceM := StateM SourceState

namespace SourceM

/-- Notes that a stand-in is written. -/
def placeholder (p : Placeholder) : SourceM Unit :=
  modify fun s => { s with placeholders := p :: s.placeholders }

/-- The name of a variable: its own, or that of a numbered temporary. -/
def varName (v : Var) : SourceM String := do
  if v.value.mode = .temporary then
    let s ← get
    let (n, temporaries) := s.temporaries.number v
    set { s with temporaries }
    pure ("tmpvar_" ++ toString n)
  else pure v.name

/-- Writes with temporaries of its own. -/
def withOwnTemporaries (x : SourceM String) : SourceM String := do
  let outer ← get
  set { outer with temporaries := .empty }
  let text ← x
  modify fun s => { s with temporaries := outer.temporaries }
  pure text

/-- The name of a type; an array's length follows its element type. -/
def typeName : Ty → SourceM String
  | .array element length => do
    let name ← typeName element
    pure (name ++ "[" ++ toString length.toNat ++ "]")
  | .error => do
    placeholder .errorType
    pure "error"
  | ty =>
    match ty.name? with
    | some name => pure name
    | none => do
      placeholder (.anonymousType ty)
      pure ty.text
termination_by structural ty => ty

end SourceM

/-! ## §3. Punctuation -/

/-- Texts with a comma between two. -/
def commas (texts : List String) : String := ", ".intercalate texts

/-- Texts in parentheses, with a comma between two. -/
def argumentList (texts : List String) : String := "(" ++ commas texts ++ ")"

end Shading
