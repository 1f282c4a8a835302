/-
  Shading.Read.Simple — declarations, assignments, returns and loop controls from S-expressions.

  These are the parts of instructions that hold no block.  Reading them looks names up and changes
  nothing; a declaration is read as the attributes of the variable that is to be declared.
-/
import Shading.Ir.Instruction
import Shading.Read.Rvalue

namespace Shading

/-! ## §1. Declarations -/

/-- The attributes with one more qualifier; a later mode or interpolation takes the place of an
    earlier one. -/
def Variable.qualify? (v : Variable) : String → Option Variable
  | "centroid" => some { v with centroid := true }
  | "invariant" => some { v with invariant := true }
  | "auto" => some { v with mode := .auto }
  | "uniform" => some { v with mode := .uniform }
  | "in" => some { v with mode := .input }
  | "out" => some { v with mode := .output }
  | "inout" => some { v with mode := .inout }
  | "temporary" => some { v with mode := .temporary }
  | "smooth" => some { v with interpolation := .smooth }
  | "flat" => some { v with interpolation := .flat }
  | "noperspective" => some { v with interpolation := .noPerspective }
  | _ => none

/-- The attributes after all qualifiers. -/
def readQualifiers (env : Env) (whole : Node) (v : Variable) :
    List Node → Except ReadError Variable
  | [] => .ok v
  | node :: rest => do
    let name ← env.require whole (.expected .qualifier) node.symbol?
    let v ← env.require whole (.unknownQualifier name) (v.qualify? name)
    readQualifiers env whole v rest

/-- Reads a declaration: qualifiers, type and name. -/
def readVariable (env : Env) : Node → Except ReadError Variable
  | whole@(.list [.symbol "declare", qualifiers, ty, name]) => do
    let qualifiers ← env.require whole (.expected .qualifiers) qualifiers.list?
    let ty ← readType env ty
    let name ← env.require whole (.expected .variableName) name.symbol?
    readQualifiers env whole { name, ty } qualifiers
  | whole@(.list (.symbol "declare" :: _)) => env.fail whole (.count .declare)
  | node => env.fail node (.shape .declare)

/-- Do the two declarations have the same qualifiers? -/
def Variable.sameQualifiers (a b : Variable) : Bool :=
  a.mode == b.mode && a.interpolation == b.interpolation && a.centroid == b.centroid
    && a.invariant == b.invariant

/-! ## §2. Assignments and returns -/

/-- Reads the letters of a write mask; without any the whole is written. -/
def readMask (env : Env) : Node → Except ReadError String
  | .list [] => .ok ""
  | .list [.symbol letters] => .ok letters
  | node => env.fail node (.expected .writeMask)

/-- Reads a value that may be missing, which an empty list says. -/
def readOptional (env : Env) (node : Node) : Except ReadError (Option Rvalue) :=
  if node.isEmptyList then .ok none
  else do
    let r ← readRvalue env node
    .ok (some r)

/-- Reads an assignment. -/
def readAssignment (env : Env) : Node → Except ReadError Assignment
  | whole@(.list [.symbol "assign", condition, mask, lhs, rhs]) => do
    let condition ← readOptional env condition
    let letters ← readMask env mask
    let target ← readRvalue env lhs
    let target ← asDereference env lhs .leftHandSide target
    let value ← readRvalue env rhs
    env.check whole ((Assignment.whole target value condition).withMask letters)
  | node => env.fail node (.count .assign)

/-- Reads what a return gives back. -/
def readReturn (env : Env) : Node → Except ReadError (Option Rvalue)
  | .list [_] => .ok none
  | .list [_, value] => do
    let r ← readRvalue env value
    .ok (some r)
  | node => env.fail node (.count .ret)

/-! ## §3. Loop controls -/

/-- The items of a control: a list of at most `most` items. -/
def controlItems (env : Env) (most : Nat) (node : Node) : Except ReadError (List Node) :=
  match node with
  | .list items =>
    if items.length ≤ most then .ok items else env.fail node (.expected .loopControl)
  | _ => env.fail node (.expected .loopControl)

/-- Reads the counter of a loop. -/
def readCounter (env : Env) (node : Node) : Except ReadError (Option Var) := do
  match ← controlItems env 1 node with
  | [] => .ok none
  | [.symbol name] => do
    let v ← env.require node (.undeclaredVariable name) (env.symbols.findVariable? name)
    .ok (some v)
  | _ => env.fail node (.expected .counter)

/-- Reads a control that is a value. -/
def readControl (env : Env) (node : Node) : Except ReadError (Option Rvalue) := do
  match ← controlItems env 1 node with
  | [] => .ok none
  | value :: _ => do
    let r ← readRvalue env value
    .ok (some r)

/-- The comparison of that name. -/
def comparison? (name : String) : Option Operator :=
  (Operator.ofName? name).filter (·.isComparison)

/-- Reads the end of a loop: a comparison and what the counter is compared with. -/
def readTerminator (env : Env) (node : Node) : Except ReadError (Option (Operator × Rvalue)) := do
  match ← controlItems env 2 node with
  | [] => .ok none
  | [.symbol name, value] => do
    let op ← env.require node (.notComparison name) (comparison? name)
    let r ← readRvalue env value
    .ok (some (op, r))
  | _ => env.fail node (.expected .terminator)

/-- Reads the four controls of a loop. -/
def readControls (env : Env) (whole counter start stop increment : Node) :
    Except ReadError Controls := do
  let counter ← readCounter env counter
  let start ← readControl env start
  let stop ← readTerminator env stop
  let increment ← readControl env increment
  let controls : Controls := { counter, start, increment }
  match stop with
  | none => .ok controls
  | some (comparison, value) => env.check whole (controls.withTerminator comparison value)

end Shading
