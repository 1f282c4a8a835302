/-
  Shading.Glsl.Lookup — the source functions of texture lookups.

  Lookups that old versions of the language can express have functions of their own for each
  sampler, like `texture2DProj`; the rest share overloaded functions, like `textureGradOffset`.
-/
import Shading.Ir.Rvalue

namespace Shading

namespace Sampler

/-- The word for the sampler in the names of functions of its own, if it has such functions. -/
def ownFunctionWord? (s : Sampler) : Option String :=
  if s.array || s.result != .float then none
  else
    match s.dim, s.shadow with
    | .d1, _ => some "1D"
    | .d2, _ => some "2D"
    | .d3, false => some "3D"
    | .cube, false => some "Cube"
    | .rect, _ => some "2DRect"
    | _, _ => none

/-- The number of components that address a texel. -/
def texelComponents (s : Sampler) : Nat :=
  match s.dim with
  | .d1 | .buffer => 1
  | .d2 | .rect => 2
  | .d3 | .cube => 3

end Sampler

namespace Lookup

/-- Do old versions of the language have the lookup? -/
def isOld : Lookup → Bool
  | plain | bias _ | level _ => true
  | gradient _ _ | fetch _ => false

/-- The part of a function's name that says how the level of detail is chosen. -/
def word : Lookup → String
  | level _ => "Lod"
  | gradient _ _ => "Grad"
  | _ => ""

/-- The name of the source function. -/
def functionName (lookup : Lookup) (s : Sampler) (projected offset : Bool) : String :=
  let proj := if projected then "Proj" else ""
  let stem :=
    match lookup with
    | fetch _ => "texelFetch"
    | _ =>
      match if lookup.isOld && !offset then s.ownFunctionWord? else none with
      | some word => (if s.shadow then "shadow" else "texture") ++ word ++ proj
      | none => "texture" ++ proj
  stem ++ lookup.word ++ (if offset then "Offset" else "")

end Lookup

namespace Offsets

/-- Is any offset there? -/
def isNonzero (o : Offsets) : Bool := o != .zero

/-- The first `n` offsets as an argument: a number, or a vector of them. -/
def argument (o : Offsets) (n : Nat) : String :=
  match ([o.x, o.y, o.z].take n).map fun x => toString x.toInt with
  | [x] => x
  | xs => "ivec" ++ toString n ++ "(" ++ ", ".intercalate xs ++ ")"

end Offsets

end Shading
