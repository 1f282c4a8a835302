/-
  Shading.Glsl.Module — modules as shader source.

  `printSource` writes a module as source for people to read.  It never fails: what the language has
  no words for is written as a stand-in, and the result says so.
-/
import Shading.Glsl.Rvalue

namespace Shading

/-! ## §1. Declarations -/

namespace Variable

/-- The qualifiers of a declaration statement.  Being a temporary is none. -/
def sourceQualifiers (v : Variable) : List String :=
  (if v.invariant then ["invariant"] else []) ++ v.interpolation.qualifier?.toList
    ++ (if v.centroid then ["centroid"] else [])
    ++ (if v.mode = .temporary then [] else v.mode.qualifier?.toList)

/-- The qualifiers of a parameter: only the direction counts. -/
def parameterQualifiers (v : Variable) : List String :=
  match v.mode with
  | .input | .output | .inout => v.mode.qualifier?.toList
  | _ => []

end Variable

namespace Var

/-- A declaration: qualifiers, type and name. -/
def declaration (v : Var) (qualifiers : List String) : SourceM String := do
  let type ← SourceM.typeName v.ty
  let name ← SourceM.varName v
  pure (String.join (qualifiers.map (· ++ " ")) ++ type ++ " " ++ name)

/-- A declaration statement. -/
def statement (v : Var) : SourceM String := do
  let text ← v.declaration v.value.sourceQualifiers
  pure (text ++ ";")

/-- The parameters of a function from the first to the last. -/
def parameterTexts : List Var → SourceM (List String)
  | [] => pure []
  | v :: rest => do
    let text ← v.declaration v.value.parameterQualifiers
    let texts ← parameterTexts rest
    pure (text :: texts)

end Var

/-! ## §2. Statements -/

/-- The head of a conditional statement. -/
def conditionText (condition : Rvalue) : SourceM String := do
  let text ← condition.source
  pure (if condition.isParenthesized then "if " ++ text ++ " " else "if (" ++ text ++ ") ")

/-- An assignment.  The components are named unless all are written. -/
def Assignment.source (a : Assignment) : SourceM String := do
  let head ← match a.condition with
    | some condition => conditionText condition
    | none => pure ""
  let target ← a.lhs.source
  let value ← a.rhs.source
  let letters := if a.mask = fullMask a.lhs.ty then "" else "." ++ a.mask.letters
  pure (head ++ target ++ letters ++ " = " ++ value ++ ";")

/-- A return statement. -/
def returnText : Option Rvalue → SourceM String
  | none => pure "return;"
  | some value => do
    let text ← value.source
    pure ("return " ++ text ++ ";")

/-- The head of a loop with all of its controls.  The controls say when the loop ends, the source
    says how long it goes on. -/
def forHead (counter : Var) (start stop increment : Rvalue) (goesOn : Operator) :
    SourceM String := do
  let name ← SourceM.varName counter
  let start ← start.source
  let stop ← stop.source
  let increment ← increment.source
  pure ("for (" ++ name ++ " = " ++ start ++ "; " ++ name ++ " " ++ goesOn.name ++ " " ++ stop
    ++ "; " ++ name ++ " += " ++ increment ++ ") ")

/-- The head of a loop with some of its controls, which has no source form. -/
def partialHead (c : Controls) : SourceM String := do
  SourceM.placeholder .partialLoop
  let counter ← match c.counter with
    | some v => SourceM.varName v
    | none => pure "_"
  let start ← match c.start with
    | some r => r.source
    | none => pure "_"
  let stop ← match c.comparison, c.stop with
    | some op, some r => do
      let text ← r.source
      pure (op.name ++ " " ++ text)
    | _, _ => pure "_"
  let increment ← match c.increment with
    | some r => r.source
    | none => pure "_"
  pure ("loop (" ++ commas [counter, start, stop, increment] ++ ") ")

/-- The head of a loop. -/
def loopHead (c : Controls) : SourceM String :=
  match c.counter, c.start, c.stop, c.increment, c.comparison.bind (·.negation?) with
  | some counter, some start, some stop, some increment, some goesOn =>
    forHead counter start stop increment goesOn
  | _, _, _, _, _ => if c.isBare then pure "while (true) " else partialHead c

/-! ## §3. Instructions -/

/-- A block in braces: each instruction is on a line of its own, one level deeper. -/
def blockText (depth : Nat) (instructions : List String) : String :=
  "\x7b" ++ Layout.stacked (depth + 1) instructions ++ Layout.newline depth ++ "\x7d"

mutual

/-- An instruction in source, on a line indented by `depth` levels. -/
def Instruction.source (depth : Nat) : Instruction → SourceM String
  | .declare v => v.statement
  | .function name signatures => do
    let texts ← Signature.sources depth name signatures
    pure ((Layout.newline depth).intercalate texts)
  | .assign a => a.source
  | .ret value => returnText value
  | .branch condition thenBody elseBody => do
    let head ← conditionText condition
    let thenTexts ← Instruction.sources (depth + 1) thenBody
    let elseTexts ← Instruction.sources (depth + 1) elseBody
    pure (head ++ blockText depth thenTexts
      ++ (if elseBody.isEmpty then "" else " else " ++ blockText depth elseTexts))
  | .loop _ controls body => do
    let head ← loopHead controls
    let texts ← Instruction.sources (depth + 1) body
    pure (head ++ blockText depth texts)
  | .jump mode _ => pure (mode.name ++ ";")
  | .rvalue r => do
    let text ← r.source
    pure (text ++ ";")
termination_by structural i => i

/-- Instructions from the first to the last. -/
def Instruction.sources (depth : Nat) : List Instruction → SourceM (List String)
  | [] => pure []
  | i :: rest => do
    let text ← Instruction.source depth i
    let texts ← Instruction.sources depth rest
    pure (text :: texts)
termination_by structural is => is

/-- An overload of a function: with its body, or as a prototype.  Its temporaries are numbered from
    one. -/
def Signature.source (depth : Nat) (function : String) : Signature → SourceM String
  | ⟨returnType, parameters, body, isDefined⟩ =>
    SourceM.withOwnTemporaries do
      let type ← SourceM.typeName returnType
      let params ← Var.parameterTexts parameters
      let head := type ++ " " ++ function ++ argumentList params
      if isDefined then do
        let texts ← Instruction.sources (depth + 1) body
        pure (head ++ " " ++ blockText depth texts)
      else pure (head ++ ";")
termination_by structural s => s

/-- Overloads from the first to the last. -/
def Signature.sources (depth : Nat) (function : String) : List Signature → SourceM (List String)
  | [] => pure []
  | s :: rest => do
    let text ← Signature.source depth function s
    let texts ← Signature.sources depth function rest
    pure (text :: texts)
termination_by structural ss => ss

end

/-! ## §4. Modules -/

/-- A module as source, and the stand-ins in it. -/
structure Source where
  text : String
  placeholders : List Placeholder

/-- Is all of it source? -/
def Source.fidelity (s : Source) : Fidelity := if s.placeholders.isEmpty then .exact else .part

/-- Writes a module as source: each instruction begins a line. -/
def printSource (ir : List Instruction) : Source :=
  let (texts, s) := (Instruction.sources 0 ir).run {}
  ⟨String.join (texts.map (· ++ "\n")), s.placeholders.reverse⟩

end Shading
