/-
  Shading.Ir.Text — the textual form of the intermediate representation.

  Every instruction and rvalue has a `layout` as an S-expression, which the reader accepts: printing
  what was read and reading it again gives the same text.  `printModule` writes one top-level
  instruction after the other.

      rvalues                     on one line
      blocks                      one instruction a line, unless they are empty
      functions and signatures    one signature, parameter or instruction a line
-/
import Shading.Ir.Instruction

namespace Shading

/-! ## §1. Rvalues -/

mutual

/-- A constant: its type and its components or elements. -/
def Constant.layout : Constant → Layout
  | ⟨ty, .array elements⟩ =>
    .line [.word "constant", ty.layout, .line (Constant.layouts elements)]
  | ⟨ty, value⟩ =>
    .line [.word "constant", ty.layout,
      .line ((Constant.components ⟨ty, value⟩).map fun x => .word x.text)]
termination_by structural c => c

/-- The layouts of the constants. -/
def Constant.layouts : List Constant → List Layout
  | [] => []
  | c :: rest => Constant.layout c :: Constant.layouts rest
termination_by structural constants => constants

end

/-- The three offsets in a list. -/
def Offsets.layout (o : Offsets) : Layout :=
  .line [.word (toString o.x.toInt), .word (toString o.y.toInt), .word (toString o.z.toInt)]

mutual

/-- A value: a list that begins with the tag of its kind. -/
def Rvalue.layout : Rvalue → Layout
  | .expression op ty operands =>
    .line (.word "expression" :: ty.layout :: .word op.name :: Rvalue.layouts operands)
  | .swizzle value mask _ => .line [.word "swiz", .word mask.text, Rvalue.layout value]
  | .dereference d => Dereference.layout d
  | .constant c => c.layout
  | .call callee _ _ args => .line [.word "call", .word callee, .line (Rvalue.layouts args)]
  | .texture t => Texture.layout t
termination_by structural r => r

/-- The layouts of the values. -/
def Rvalue.layouts : List Rvalue → List Layout
  | [] => []
  | r :: rest => Rvalue.layout r :: Rvalue.layouts rest
termination_by structural rs => rs

/-- An optional value, with a stand-in for a missing one. -/
def Rvalue.layoutOr (missing : Layout) : Option Rvalue → Layout
  | none => missing
  | some r => Rvalue.layout r
termination_by structural r => r

/-- A dereference: a list that begins with the tag of its kind. -/
def Dereference.layout : Dereference → Layout
  | .var v => .line [.word "var_ref", .word v.name]
  | .index base index _ => .line [.word "array_ref", Rvalue.layout base, Rvalue.layout index]
  | .field base name _ => .line [.word "record_ref", Rvalue.layout base, .word name]
termination_by structural d => d

/-- A texture lookup.  A missing projector is written as a division by one; a fetch has neither
    projector nor comparator. -/
def Texture.layout : Texture → Layout
  | ⟨.fetch lod, _, sampler, coordinate, offsets, _, _⟩ =>
    .line [.word "txf", Dereference.layout sampler, Rvalue.layout coordinate, offsets.layout,
      Rvalue.layout lod]
  | ⟨lookup, _, sampler, coordinate, offsets, projector, comparator⟩ =>
    .line (.word lookup.name :: Dereference.layout sampler :: Rvalue.layout coordinate
      :: offsets.layout :: Rvalue.layoutOr (.word "1") projector
      :: Rvalue.layoutOr (.line []) comparator :: Lookup.layouts lookup)
termination_by structural t => t

/-- What a lookup adds after the comparator. -/
def Lookup.layouts : Lookup → List Layout
  | .plain => []
  | .bias amount => [Rvalue.layout amount]
  | .level lod => [Rvalue.layout lod]
  | .gradient dx dy => [.line [Rvalue.layout dx, Rvalue.layout dy]]
  | .fetch lod => [Rvalue.layout lod]
termination_by structural lookup => lookup

end

/-- The value in its textual form. -/
def Rvalue.text (r : Rvalue) : String := r.layout.text

/-! ## §2. Instructions -/

/-- A declaration: qualifiers, type and name. -/
def Variable.layout (v : Variable) : Layout :=
  .line [.word "declare", .line (v.qualifiers.map .word), v.ty.layout, .word v.name]

/-- The letters of a write mask in a list, which is empty if there are none. -/
def WriteMask.layout (m : WriteMask) : Layout :=
  .line (if m.letters.isEmpty then [] else [.word m.letters])

/-- An assignment; a missing condition is an empty list. -/
def Assignment.layout (a : Assignment) : Layout :=
  .line [.word "assign", Rvalue.layoutOr (.line []) a.condition, a.mask.layout, a.lhs.layout,
    a.rhs.layout]

/-- The four lists of a loop's controls.  The end is written only if both of its parts are there. -/
def Controls.layouts (c : Controls) : List Layout :=
  [.line (c.counter.map fun v => .word v.name).toList,
    .line (c.start.map (·.layout)).toList,
    .line (match c.comparison, c.stop with
      | some comparison, some stop => [.word comparison.name, stop.layout]
      | _, _ => []),
    .line (c.increment.map (·.layout)).toList]

/-- A block of laid-out instructions: one a line, unless there are none. -/
def blockLayout : List Layout → Layout
  | [] => .line []
  | rows => .rows [] rows true

mutual

/-- An instruction: a list that begins with the tag of its kind; a jump is its keyword alone. -/
def Instruction.layout : Instruction → Layout
  | .declare v => v.value.layout
  | .function name signatures =>
    .rows [.word "function", .word name] (Signature.layouts signatures) true
  | .assign a => a.layout
  | .ret value => .line (.word "return" :: (value.map (·.layout)).toList)
  | .branch condition thenBody elseBody =>
    .line [.word "if", condition.layout, blockLayout (Instruction.layouts thenBody),
      blockLayout (Instruction.layouts elseBody)]
  | .loop _ controls body =>
    .line (.word "loop" :: (controls.layouts ++ [blockLayout (Instruction.layouts body)]))
  | .jump mode _ => .word mode.name
  | .rvalue r => r.layout
termination_by structural i => i

/-- The layouts of the instructions. -/
def Instruction.layouts : List Instruction → List Layout
  | [] => []
  | i :: rest => Instruction.layout i :: Instruction.layouts rest
termination_by structural is => is

/-- An overload: its return type, its parameters and its body. -/
def Signature.layout : Signature → Layout
  | ⟨returnType, parameters, body, _⟩ =>
    .rows [.word "signature", returnType.layout]
      [.rows [.word "parameters"] (parameters.map (·.value.layout)) false,
        blockLayout (Instruction.layouts body)] false
termination_by structural s => s

/-- The layouts of the overloads. -/
def Signature.layouts : List Signature → List Layout
  | [] => []
  | s :: rest => Signature.layout s :: Signature.layouts rest
termination_by structural ss => ss

end

/-- The instruction in its textual form. -/
def Instruction.text (i : Instruction) : String := i.layout.text

/-- The module in its textual form: each instruction begins a line. -/
def printModule (ir : List Instruction) : String :=
  String.join (ir.map fun i => i.text ++ "\n")

end Shading
