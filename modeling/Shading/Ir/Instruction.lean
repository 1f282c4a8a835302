/-
  Shading.Ir.Instruction — instructions, functions and modules.

  A module is a list of `Instruction`s.  Functions hold overloads as `Signature`s, whose bodies are
  lists of instructions again.
-/
import Shading.Ir.Rvalue

namespace Shading

/-! ## §1. Assignments -/

/-- Stores a value into a variable or a part of one. -/
structure Assignment where
  condition : Option Rvalue
  lhs : Dereference
  rhs : Rvalue
  mask : WriteMask

namespace Assignment

/-- The mask that writes the whole of a scalar or vector; other values are not written by
    components. -/
def fullMask : Ty → WriteMask
  | .scalar _ => .first 1
  | .vector _ size => .first size.toNat
  | _ => .empty

/-- An assignment of the whole value. -/
def whole (lhs : Dereference) (rhs : Rvalue) (condition : Option Rvalue) : Assignment :=
  ⟨condition, lhs, rhs, fullMask lhs.ty⟩

/-- The set of the components that the letters name, if a value of the type has all of them.  At
    most four letters may be given. -/
def maskOfText? (ty : Ty) (text : String) : Option WriteMask :=
  (Component.ofLetters? text.toList).bind fun components =>
    if components.length ≤ 4 ∧ (ty.isScalar ∨ ty.isVector) ∧ components.all (·.index < ty.rows) then
      some (.ofComponents components)
    else none

/-- The assignment restricted to the components that the letters name; without letters it stays as
    it is. -/
def withMask (a : Assignment) (text : String) : Except Fault Assignment :=
  if text.isEmpty then .ok a
  else
    match maskOfText? a.lhs.ty text with
    | some mask => .ok { a with mask }
    | none => .error (.invalidWriteMask text)

end Assignment

/-! ## §2. Loop controls -/

/-- What a loop says about its counter: where it starts, how it moves and when the loop ends.  All
    of it may be missing. -/
structure Controls where
  counter : Option Var := none
  start : Option Rvalue := none
  stop : Option Rvalue := none
  increment : Option Rvalue := none
  comparison : Option Operator := none

namespace Controls

/-- No controls at all. -/
def empty : Controls := {}

/-- The controls with an end: the loop runs until the counter compares so with `stop`. -/
def withTerminator (c : Controls) (comparison : Operator) (stop : Rvalue) : Except Fault Controls :=
  if comparison.isComparison then .ok { c with comparison := some comparison, stop := some stop }
  else .error (.notComparison comparison)

/-- Is everything there that a counting loop needs? -/
def isCanonical (c : Controls) : Bool :=
  c.counter.isSome && c.start.isSome && c.stop.isSome && c.increment.isSome && c.comparison.isSome

/-- Is there nothing, so that only a jump ends the loop?  A comparison without a value to compare
    with counts as nothing. -/
def isBare (c : Controls) : Bool :=
  c.counter.isNone && c.start.isNone && c.stop.isNone && c.increment.isNone

end Controls

/-! ## §3. Instructions -/

mutual

/-- An instruction. -/
inductive Instruction where
  /-- Declares a variable. -/
  | declare (v : Var)
  /-- A function and its overloads. -/
  | function (name : String) (signatures : List Signature)
  /-- An assignment. -/
  | assign (a : Assignment)
  /-- Leaves the function. -/
  | ret (value : Option Rvalue)
  /-- Chooses between two blocks. -/
  | branch (condition : Rvalue) (thenBody elseBody : List Instruction)
  /-- Repeats a block. -/
  | loop (id : LoopId) (controls : Controls) (body : List Instruction)
  /-- Leaves a loop's body. -/
  | jump (mode : JumpMode) (target : LoopId)
  /-- Computes a value and drops it. -/
  | rvalue (r : Rvalue)

/-- An overload of a function.  It is a mere prototype until its body has been given, even an empty
    one. -/
structure Signature where
  returnType : Ty
  parameters : List Var
  body : List Instruction
  isDefined : Bool

end

instance : Inhabited Instruction := ⟨.ret none⟩

instance : Inhabited Signature := ⟨⟨.error, [], [], false⟩⟩

/-- A jump to the enclosing loop. -/
def Instruction.mkJump (mode : JumpMode) (enclosing : Option LoopId) : Except Fault Instruction :=
  match enclosing with
  | some target => .ok (.jump mode target)
  | none => .error (.noEnclosingLoop mode)

/-- A prototype. -/
def Signature.prototype (returnType : Ty) (parameters : List Var) : Signature :=
  ⟨returnType, parameters, [], false⟩

/-- The types of the parameters. -/
def Signature.types (s : Signature) : List Ty := s.parameters.map (·.ty)

/-- A function and its overloads. -/
structure Function where
  name : String
  signatures : List Signature
deriving Inhabited

namespace Function

/-- The function as an instruction. -/
def toInstruction (f : Function) : Instruction := .function f.name f.signatures

/-- The place of the first overload with exactly these parameter types. -/
def matching? (f : Function) (types : List Ty) : Option Nat :=
  f.signatures.findIdx? (·.types = types)

end Function

end Shading
