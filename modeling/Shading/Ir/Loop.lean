/-
  Shading.Ir.Loop — loops and jumps by identity.
-/

namespace Shading

/-- The identity of a loop. -/
structure LoopId where
  number : Nat
deriving DecidableEq, Repr, Inhabited

/-- The loop's identity in words. -/
def LoopId.text (id : LoopId) : String := "LoopId(" ++ toString id.number ++ ")"

/-- Which way a jump leaves a loop's body. -/
inductive JumpMode where
  | break
  | continue
deriving DecidableEq, Repr, Inhabited

/-- The keyword of the jump. -/
def JumpMode.name : JumpMode → String
  | .break => "break"
  | .continue => "continue"

end Shading
