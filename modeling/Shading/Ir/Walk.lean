/-
  Shading.Ir.Walk — what a walk through a module meets.

  A walk goes through a module from the first instruction to the last and through each node before
  its parts. `Instruction.walk` lists what it meets as `Visit`s with their depths; the variables
  that a module declares and uses, and its loops, are read off that list.

      signatures    parameters, then the body
      assignments   condition, left-hand side, right-hand side
      loops         counter, start, end, increment, then the body
      lookups       sampler, coordinate, projector, comparator, then the level of detail
-/
import Shading.Ir.Instruction

namespace Shading

/-! ## §1. Visits -/

/-- What a walk meets. -/
inductive Visit where
  | block (size : Nat)
  | declare (v : Var)
  | function (name : String) (signatures : Nat)
  | signature (function : String) (returnType : Ty) (parameters : Nat) (isDefined : Bool)
  | assign (mask : WriteMask) (isConditional : Bool)
  | ret
  | branch
  | loop (id : LoopId) (controls : Controls)
  | jump (mode : JumpMode) (target : LoopId)
  | expression (op : Operator) (ty : Ty) (operands : Nat)
  | swizzle (mask : SwizzleMask) (ty : Ty)
  | var (ty : Ty)
  | index (ty : Ty) (root : Option Var)
  | field (name : String) (ty : Ty) (root : Option Var)
  | constant (ty : Ty) (components : List ScalarValue)
  | call (callee : String) (signature : Nat) (ty : Ty) (args : Nat)
  | texture (lookup : String) (ty : Ty) (offsets : Offsets) (projected compared : Bool)
  | use (v : Var)

/-- A visit and how many nodes it is inside of. -/
structure Step where
  depth : Nat
  visit : Visit

/-! ## §2. Walks -/

mutual

/-- The walk through a constant. -/
def Constant.walk (depth : Nat) : Constant → List Step
  | ⟨ty, .array elements⟩ =>
    ⟨depth, .constant ty []⟩ :: Constant.walkAll (depth + 1) elements
  | ⟨ty, value⟩ => [⟨depth, .constant ty (Constant.components ⟨ty, value⟩)⟩]
termination_by structural c => c

/-- The walk through the constants, one after the other. -/
def Constant.walkAll (depth : Nat) : List Constant → List Step
  | [] => []
  | c :: rest => Constant.walk depth c ++ Constant.walkAll depth rest
termination_by structural cs => cs

end

mutual

/-- The walk through an rvalue. -/
def Rvalue.walk (depth : Nat) : Rvalue → List Step
  | .expression op ty operands =>
    ⟨depth, .expression op ty operands.length⟩ :: Rvalue.walkAll (depth + 1) operands
  | .swizzle value mask ty => ⟨depth, .swizzle mask ty⟩ :: Rvalue.walk (depth + 1) value
  | .dereference d => Dereference.walk depth d
  | .constant c => c.walk depth
  | .call callee signature ty args =>
    ⟨depth, .call callee signature ty args.length⟩ :: Rvalue.walkAll (depth + 1) args
  | .texture t => Texture.walk depth t
termination_by structural r => r

/-- The walk through the rvalues, one after the other. -/
def Rvalue.walkAll (depth : Nat) : List Rvalue → List Step
  | [] => []
  | r :: rest => Rvalue.walk depth r ++ Rvalue.walkAll depth rest
termination_by structural rs => rs

/-- The walk through an rvalue that may be missing. -/
def Rvalue.walkOption (depth : Nat) : Option Rvalue → List Step
  | none => []
  | some r => Rvalue.walk depth r
termination_by structural r => r

/-- The walk through a dereference. -/
def Dereference.walk (depth : Nat) : Dereference → List Step
  | .var v => [⟨depth, .var v.ty⟩, ⟨depth + 1, .use v⟩]
  | .index base index ty =>
    ⟨depth, .index ty (Dereference.root? (.index base index ty))⟩
      :: (Rvalue.walk (depth + 1) base ++ Rvalue.walk (depth + 1) index)
  | .field base name ty =>
    ⟨depth, .field name ty (Dereference.root? (.field base name ty))⟩
      :: Rvalue.walk (depth + 1) base
termination_by structural d => d

/-- The walk through a texture lookup. -/
def Texture.walk (depth : Nat) : Texture → List Step
  | ⟨lookup, ty, sampler, coordinate, offsets, projector, comparator⟩ =>
    ⟨depth, .texture lookup.name ty offsets projector.isSome comparator.isSome⟩
      :: (Dereference.walk (depth + 1) sampler ++ Rvalue.walk (depth + 1) coordinate
        ++ Rvalue.walkOption (depth + 1) projector ++ Rvalue.walkOption (depth + 1) comparator
        ++ Lookup.walk (depth + 1) lookup)
termination_by structural t => t

/-- The walk through what chooses the level of detail. -/
def Lookup.walk (depth : Nat) : Lookup → List Step
  | .plain => []
  | .bias amount => Rvalue.walk depth amount
  | .level lod => Rvalue.walk depth lod
  | .gradient dx dy => Rvalue.walk depth dx ++ Rvalue.walk depth dy
  | .fetch lod => Rvalue.walk depth lod
termination_by structural lookup => lookup

end

/-- The walk through the parts of an assignment. -/
def Assignment.walk (depth : Nat) (a : Assignment) : List Step :=
  Rvalue.walkOption depth a.condition ++ a.lhs.walk depth ++ a.rhs.walk depth

/-- The walk through a loop's controls. -/
def Controls.walk (depth : Nat) (c : Controls) : List Step :=
  (c.counter.map fun v => (⟨depth, .use v⟩ : Step)).toList
    ++ Rvalue.walkOption depth c.start ++ Rvalue.walkOption depth c.stop
    ++ Rvalue.walkOption depth c.increment

mutual

/-- The walk through an instruction. -/
def Instruction.walk (depth : Nat) : Instruction → List Step
  | .declare v => [⟨depth, .declare v⟩]
  | .function name signatures =>
    ⟨depth, .function name signatures.length⟩ :: Signature.walkAll (depth + 1) name signatures
  | .assign a => ⟨depth, .assign a.mask a.condition.isSome⟩ :: a.walk (depth + 1)
  | .ret value => ⟨depth, .ret⟩ :: Rvalue.walkOption (depth + 1) value
  | .branch condition thenBody elseBody =>
    ⟨depth, .branch⟩ :: (condition.walk (depth + 1)
      ++ ⟨depth + 1, .block thenBody.length⟩ :: Instruction.walkAll (depth + 2) thenBody
      ++ ⟨depth + 1, .block elseBody.length⟩ :: Instruction.walkAll (depth + 2) elseBody)
  | .loop id controls body =>
    ⟨depth, .loop id controls⟩ :: (controls.walk (depth + 1)
      ++ ⟨depth + 1, .block body.length⟩ :: Instruction.walkAll (depth + 2) body)
  | .jump mode target => [⟨depth, .jump mode target⟩]
  | .rvalue r => r.walk depth
termination_by structural i => i

/-- The walk through the instructions, one after the other. -/
def Instruction.walkAll (depth : Nat) : List Instruction → List Step
  | [] => []
  | i :: rest => Instruction.walk depth i ++ Instruction.walkAll depth rest
termination_by structural is => is

/-- The walk through an overload of a function. -/
def Signature.walk (depth : Nat) (function : String) : Signature → List Step
  | ⟨returnType, parameters, body, isDefined⟩ =>
    ⟨depth, .signature function returnType parameters.length isDefined⟩
      :: (parameters.map (fun v => ⟨depth + 1, .declare v⟩)
        ++ ⟨depth + 1, .block body.length⟩ :: Instruction.walkAll (depth + 2) body)
termination_by structural s => s

/-- The walk through the overloads, one after the other. -/
def Signature.walkAll (depth : Nat) (function : String) : List Signature → List Step
  | [] => []
  | s :: rest => Signature.walk depth function s ++ Signature.walkAll depth function rest
termination_by structural ss => ss

end

/-! ## §3. What a module declares, uses and repeats -/

/-- The variable that a visit declares. -/
def Visit.declared? : Visit → Option Var
  | declare v => some v
  | _ => none

/-- The variable that a visit uses. -/
def Visit.used? : Visit → Option Var
  | use v => some v
  | _ => none

/-- The loop that a visit enters. -/
def Visit.loop? : Visit → Option LoopId
  | loop id _ => some id
  | _ => none

/-- The walk through a module. -/
def walkModule (ir : List Instruction) : List Step := Instruction.walkAll 0 ir

/-- The variables that a module declares, in the order of the walk. -/
def declaredVars (ir : List Instruction) : List Var :=
  (walkModule ir).filterMap (·.visit.declared?)

/-- The variables that a module uses, in the order of the walk. -/
def usedVars (ir : List Instruction) : List Var := (walkModule ir).filterMap (·.visit.used?)

/-- The loops of a module, in the order of the walk. -/
def loopIds (ir : List Instruction) : List LoopId := (walkModule ir).filterMap (·.visit.loop?)

end Shading
