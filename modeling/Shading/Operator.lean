/-
  Shading.Operator — the operators of expressions.

  Twenty-eight operators take one operand and twenty-four take two.  The table gives each operator's
  name in the textual form; source code writes some of them before their operand, some between their
  operands, some as a conversion to the result type, and calls the rest like functions.
-/

namespace Shading

/-- An operator. -/
inductive Operator where
  | bitNot
  | logicNot
  | neg
  | abs
  | sign
  | rcp
  | rsq
  | sqrt
  | exp
  | log
  | exp2
  | log2
  | f2i
  | i2f
  | f2b
  | b2f
  | i2b
  | b2i
  | u2f
  | any
  | trunc
  | ceil
  | floor
  | fract
  | sin
  | cos
  | dFdx
  | dFdy
  | add
  | sub
  | mul
  | div
  | mod
  | less
  | greater
  | lessEqual
  | greaterEqual
  | equal
  | notEqual
  | shiftLeft
  | shiftRight
  | bitAnd
  | bitXor
  | bitOr
  | logicAnd
  | logicXor
  | logicOr
  | dot
  | cross
  | min
  | max
  | pow
deriving DecidableEq, Repr, Inhabited

namespace Operator

/-! ## §1. The table -/

/-- Every operator, in the order of the table. -/
def all : List Operator :=
  [.bitNot, .logicNot, .neg, .abs, .sign, .rcp, .rsq, .sqrt, .exp, .log, .exp2, .log2, .f2i,
    .i2f, .f2b, .b2f, .i2b, .b2i, .u2f, .any, .trunc, .ceil, .floor, .fract, .sin, .cos, .dFdx,
    .dFdy, .add, .sub, .mul, .div, .mod, .less, .greater, .lessEqual, .greaterEqual, .equal,
    .notEqual, .shiftLeft, .shiftRight, .bitAnd, .bitXor, .bitOr, .logicAnd, .logicXor,
    .logicOr, .dot, .cross, .min, .max, .pow]

/-- The operator's name in the textual form. -/
def name : Operator → String
  | bitNot => "~"
  | logicNot => "!"
  | neg => "neg"
  | abs => "abs"
  | sign => "sign"
  | rcp => "rcp"
  | rsq => "rsq"
  | sqrt => "sqrt"
  | exp => "exp"
  | log => "log"
  | exp2 => "exp2"
  | log2 => "log2"
  | f2i => "f2i"
  | i2f => "i2f"
  | f2b => "f2b"
  | b2f => "b2f"
  | i2b => "i2b"
  | b2i => "b2i"
  | u2f => "u2f"
  | any => "any"
  | trunc => "trunc"
  | ceil => "ceil"
  | floor => "floor"
  | fract => "fract"
  | sin => "sin"
  | cos => "cos"
  | dFdx => "dFdx"
  | dFdy => "dFdy"
  | add => "+"
  | sub => "-"
  | mul => "*"
  | div => "/"
  | mod => "%"
  | less => "<"
  | greater => ">"
  | lessEqual => "<="
  | greaterEqual => ">="
  | equal => "=="
  | notEqual => "!="
  | shiftLeft => "<<"
  | shiftRight => ">>"
  | bitAnd => "&"
  | bitXor => "^"
  | bitOr => "|"
  | logicAnd => "&&"
  | logicXor => "^^"
  | logicOr => "||"
  | dot => "dot"
  | cross => "cross"
  | min => "min"
  | max => "max"
  | pow => "pow"

/-- The operator's label in a report of a traversal. -/
def label : Operator → String
  | bitNot => "BitNot"
  | logicNot => "LogicNot"
  | neg => "Neg"
  | abs => "Abs"
  | sign => "Sign"
  | rcp => "Rcp"
  | rsq => "Rsq"
  | sqrt => "Sqrt"
  | exp => "Exp"
  | log => "Log"
  | exp2 => "Exp2"
  | log2 => "Log2"
  | f2i => "F2I"
  | i2f => "I2F"
  | f2b => "F2B"
  | b2f => "B2F"
  | i2b => "I2B"
  | b2i => "B2I"
  | u2f => "U2F"
  | any => "Any"
  | trunc => "Trunc"
  | ceil => "Ceil"
  | floor => "Floor"
  | fract => "Fract"
  | sin => "Sin"
  | cos => "Cos"
  | dFdx => "DFdx"
  | dFdy => "DFdy"
  | add => "Add"
  | sub => "Sub"
  | mul => "Mul"
  | div => "Div"
  | mod => "Mod"
  | less => "Less"
  | greater => "Greater"
  | lessEqual => "LEqual"
  | greaterEqual => "GEqual"
  | equal => "Equal"
  | notEqual => "NEqual"
  | shiftLeft => "LShift"
  | shiftRight => "RShift"
  | bitAnd => "BitAnd"
  | bitXor => "BitXor"
  | bitOr => "BitOr"
  | logicAnd => "LogicAnd"
  | logicXor => "LogicXor"
  | logicOr => "LogicOr"
  | dot => "Dot"
  | cross => "Cross"
  | min => "Min"
  | max => "Max"
  | pow => "Pow"

/-- Does the operator take two operands? -/
def isBinary : Operator → Bool
  | add | sub | mul | div | mod | less | greater | lessEqual | greaterEqual | equal | notEqual
  | shiftLeft | shiftRight | bitAnd | bitXor | bitOr | logicAnd | logicXor | logicOr | dot
  | cross | min | max | pow => true
  | _ => false

/-- The number of operands the operator takes. -/
def arity (op : Operator) : Nat := if op.isBinary then 2 else 1

/-- The operator of that name. -/
def ofName? (name : String) : Option Operator := all.find? (·.name == name)

/-- The operator's place in the table. -/
def position (op : Operator) : Nat := all.idxOf op

/-! ## §2. Comparisons -/

/-- Is it one of the six comparisons? -/
def isComparison : Operator → Bool
  | less | greater | lessEqual | greaterEqual | equal | notEqual => true
  | _ => false

/-- The comparison that holds exactly where this one does not. -/
def negation? : Operator → Option Operator
  | less => some greaterEqual
  | greaterEqual => some less
  | greater => some lessEqual
  | lessEqual => some greater
  | equal => some notEqual
  | notEqual => some equal
  | _ => none

/-! ## §3. Source code -/

/-- The symbol of an operator that stands between its operands. -/
def infixSymbol? : Operator → Option String
  | dot | cross | min | max | pow => none
  | op => if op.isBinary then some op.name else none

/-- The symbol of an operator that stands before its operand. -/
def prefixSymbol? : Operator → Option String
  | bitNot => some "~"
  | logicNot => some "!"
  | neg => some "-"
  | _ => none

/-- Does the operator convert between kinds of components?  Source code writes such an operator as a
    constructor of the result type. -/
def isConversion : Operator → Bool
  | f2i | i2f | f2b | b2f | i2b | b2i | u2f => true
  | _ => false

end Operator

end Shading
