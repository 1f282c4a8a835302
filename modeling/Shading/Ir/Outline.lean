/-
  Shading.Ir.Outline — a module line by line.

  The outline has a line for each step of the walk: its depth and what is there.
-/
import Shading.Ir.Walk

namespace Shading

/-- The mode in words. -/
def Mode.label : Mode → String
  | auto => "Auto"
  | uniform => "Uniform"
  | input => "In"
  | output => "Out"
  | inout => "InOut"
  | temporary => "Temporary"

/-- The interpolation in words. -/
def Interpolation.label : Interpolation → String
  | smooth => "Smooth"
  | flat => "Flat"
  | noPerspective => "NoPerspective"

/-- A variable with its number and attributes. -/
def Var.text (v : Var) : String :=
  v.tag ++ " " ++ v.name ++ " : " ++ v.ty.text ++ " " ++ v.value.mode.label ++ " "
    ++ v.value.interpolation.label ++ (if v.value.centroid then " centroid" else "")
    ++ (if v.value.invariant then " invariant" else "")

/-- Eight hexadecimal digits of a number. -/
def hexWord (n : Nat) : String :=
  let digits := Nat.toDigits 16 n
  String.ofList (List.replicate (8 - digits.length) '0' ++ digits)

/-- A component with a letter for its kind; a fractional number as its encoding. -/
def ScalarValue.code : ScalarValue → String
  | float value => "f" ++ hexWord value.toBits
  | int value => "i" ++ toString value.toInt
  | uint value => "u" ++ toString value.toNat
  | bool value => if value then "b1" else "b0"

/-- The variable at the root of a dereference, or a dash. -/
def rootText : Option Var → String
  | some v => v.tag
  | none => "-"

/-- The visit in words. -/
def Visit.text : Visit → String
  | block size => "block " ++ toString size
  | declare v => "declare " ++ v.text
  | function name signatures => "function " ++ name ++ " " ++ toString signatures
  | signature owner returnType parameters isDefined =>
    "signature " ++ owner ++ " " ++ returnType.text ++ " " ++ toString parameters
      ++ (if isDefined then " defined" else " prototype")
  | assign mask isConditional =>
    "assign mask=" ++ toString mask.bits.toNat
      ++ (if isConditional then " conditional" else " always")
  | ret => "return"
  | branch => "if"
  | loop id controls =>
    "loop " ++ toString id.number ++ " cmp="
      ++ (match controls.comparison with
        | some op => op.name
        | none => "-")
      ++ (if controls.isCanonical then " canonical" else "")
      ++ (if controls.isBare then " bare" else "")
  | jump mode target => mode.name ++ " " ++ toString target.number
  | expression op ty operands =>
    "expression " ++ op.label ++ " " ++ ty.text ++ " " ++ toString operands
  | swizzle mask ty => "swizzle " ++ mask.text ++ " " ++ ty.text
  | var ty => "variable " ++ ty.text
  | index ty root => "index " ++ ty.text ++ " root=" ++ rootText root
  | field name ty root => "field " ++ name ++ " " ++ ty.text ++ " root=" ++ rootText root
  | constant ty components =>
    "constant " ++ ty.text ++ " [" ++ " ".intercalate (components.map (·.code)) ++ "]"
  | call callee place ty args =>
    "call " ++ callee ++ " sig=" ++ toString place ++ " " ++ ty.text ++ " " ++ toString args
  | texture lookup ty offsets projected compared =>
    "texture " ++ lookup ++ " " ++ ty.text ++ " [" ++ toString offsets.x.toInt ++ ", "
      ++ toString offsets.y.toInt ++ ", " ++ toString offsets.z.toInt ++ "]"
      ++ (if projected then " proj" else "") ++ (if compared then " shadow" else "")
  | use v => "use " ++ v.tag ++ " " ++ v.name

/-- The lines of a module's outline. -/
def outline (ir : List Instruction) : List String :=
  (walkModule ir).map fun step => toString step.depth ++ " " ++ step.visit.text

end Shading
