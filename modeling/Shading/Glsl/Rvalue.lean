/-
  Shading.Glsl.Rvalue — values in shader source.

  How an operator is written depends on the operator, the type of the result and the operands:
  `spelling` decides it.  Conditions of branches are written after they are tested for parentheses of
  their own (`Rvalue.isParenthesized`), which goes through the same cases once more.
-/
import Shading.Glsl.Basic
import Shading.Glsl.Lookup

namespace Shading

/-! ## §1. Operators -/

/-- How an expression is written. -/
inductive Spelling where
  /-- As a constructor of the result type. -/
  | conversion
  /-- As a call of a function. -/
  | function (name : String)
  /-- As a division of one. -/
  | reciprocal
  /-- As a symbol before the operand. -/
  | before (symbol : String)
  /-- As a symbol between the operands. -/
  | between (symbol : String)
deriving DecidableEq, Repr

/-- The function that compares vectors component by component. -/
def vectorComparison : Operator → String
  | .less => "lessThan"
  | .greater => "greaterThan"
  | .lessEqual => "lessThanEqual"
  | .greaterEqual => "greaterThanEqual"
  | .equal => "equal"
  | _ => "notEqual"

/-- The function that an operator without a symbol is written as. -/
def operatorFunction : Operator → String
  | .rsq => "inversesqrt"
  | op => op.name

/-- How an expression with one operand is written. -/
def spellingOfOne (op : Operator) (ty : Ty) : Spelling :=
  if op.isConversion then .conversion
  else if op = .logicNot ∧ ty.isVector then .function "not"
  else if op = .rcp then .reciprocal
  else
    match op.prefixSymbol? with
    | some symbol => .before symbol
    | none => .function (operatorFunction op)

/-- How an expression with two operands is written; `first` is the type of the first. -/
def spellingOfTwo (op : Operator) (ty first : Ty) : Spelling :=
  if op.isComparison ∧ ty.isVector then .function (vectorComparison op)
  else if op = .mod ∧ ¬ first.isInteger then .function "mod"
  else
    match op.infixSymbol? with
    | some symbol => .between symbol
    | none => .function (operatorFunction op)

/-- How an expression is written. -/
def spelling (op : Operator) (ty : Ty) (operands : List Rvalue) : Spelling :=
  match operands with
  | [_] => spellingOfOne op ty
  | [first, _] => spellingOfTwo op ty first.ty
  | _ => .function (operatorFunction op)

namespace Spelling

/-- The text of an expression from the texts of its operands; `type` is the name of the result type.
    -/
def apply (s : Spelling) (type : String) (operands : List String) : String :=
  match s with
  | conversion => type ++ argumentList operands
  | function name => name ++ argumentList operands
  | reciprocal => "(1.0 / " ++ String.join operands ++ ")"
  | before symbol => "(" ++ symbol ++ String.join operands ++ ")"
  | between symbol => "(" ++ (" " ++ symbol ++ " ").intercalate operands ++ ")"

end Spelling

/-- Does the text of the value come in parentheses of its own? -/
def Rvalue.isParenthesized : Rvalue → Bool
  | .expression op ty [_] =>
    !op.isConversion && !(op = .logicNot && ty.isVector) && (op = .rcp || op.prefixSymbol?.isSome)
  | .expression op ty [a, _] =>
    !(op.isComparison && ty.isVector) && !(op = .mod && !a.ty.isInteger) && op.infixSymbol?.isSome
  | _ => false

/-! ## §2. Constants -/

/-- A component of a constant. -/
def ScalarValue.source : ScalarValue → String
  | float value => value.text
  | int value => toString value.toInt
  | uint value => toString value.toNat ++ "u"
  | bool value => if value then "true" else "false"

mutual

/-- A constant: a scalar as it is, anything else as a constructor of its type. -/
def Constant.source : Constant → SourceM String
  | ⟨ty, .array elements⟩ => do
    let name ← SourceM.typeName ty
    let texts ← Constant.sources elements
    pure (name ++ argumentList texts)
  | ⟨ty, value⟩ => do
    let texts := (Constant.components ⟨ty, value⟩).map (·.source)
    if ty.isScalar then pure (commas texts)
    else do
      let name ← SourceM.typeName ty
      pure (name ++ argumentList texts)
termination_by structural c => c

/-- The constants from the first to the last. -/
def Constant.sources : List Constant → SourceM (List String)
  | [] => pure []
  | c :: rest => do
    let text ← Constant.source c
    let texts ← Constant.sources rest
    pure (text :: texts)
termination_by structural cs => cs

end

/-! ## §3. Lookups -/

/-- Does the coordinate need a component that nothing reads?  A one-dimensional comparison has its
    reference in the third component. -/
def needsPadding (s : Sampler) (compared : Bool) : Bool := compared && s.dim == .d1 && !s.array

/-- The number of components of a coordinate together with reference and projector. -/
def coordinateSize (s : Sampler) (coordinate : Ty) (compared projected : Bool) : Nat :=
  coordinate.components + (needsPadding s compared).toNat + compared.toNat + projected.toNat

/-- The coordinate argument of a lookup: reference and projector are further components. -/
def coordinateArgument (s : Sampler) (size : Nat) (coordinate : String)
    (comparator projector : Option String) : String :=
  if comparator.isNone && projector.isNone then coordinate
  else
    "vec" ++ toString size ++ argumentList
      ([coordinate] ++ (if needsPadding s comparator.isSome then ["0.0"] else [])
        ++ comparator.toList ++ projector.toList)

/-- The arguments of a lookup after the coordinate; a bias comes last. -/
def lookupArguments (lookup : Lookup) (s : Sampler) (offsets : Offsets) (levels : List String) :
    List String :=
  let offset := if offsets.isNonzero then [offsets.argument s.texelComponents] else []
  match lookup with
  | .bias _ => offset ++ levels
  | _ => levels ++ offset

/-! ## §4. Values -/

mutual

/-- A value in source. -/
def Rvalue.source : Rvalue → SourceM String
  | .expression op ty operands =>
    match spelling op ty operands with
    | .conversion => do
      let name ← SourceM.typeName ty
      let texts ← Rvalue.sources operands
      pure (Spelling.conversion.apply name texts)
    | s => do
      let texts ← Rvalue.sources operands
      pure (s.apply "" texts)
  | .swizzle value mask ty =>
    if value.ty.isScalar then
      if mask.isFirstOnly then Rvalue.source value
      else do
        let name ← SourceM.typeName ty
        let text ← Rvalue.source value
        pure (name ++ argumentList [text])
    else do
      let text ← Rvalue.source value
      pure (text ++ "." ++ mask.text)
  | .dereference d => Dereference.source d
  | .constant c => c.source
  | .call callee _ _ args => do
    let texts ← Rvalue.sources args
    pure (callee ++ argumentList texts)
  | .texture t => Texture.source t
termination_by structural r => r

/-- Values from the first to the last. -/
def Rvalue.sources : List Rvalue → SourceM (List String)
  | [] => pure []
  | r :: rest => do
    let text ← Rvalue.source r
    let texts ← Rvalue.sources rest
    pure (text :: texts)
termination_by structural rs => rs

/-- A value that may be missing. -/
def Rvalue.sourceOption : Option Rvalue → SourceM (Option String)
  | none => pure none
  | some r => do
    let text ← Rvalue.source r
    pure (some text)
termination_by structural r => r

/-- A dereference in source. -/
def Dereference.source : Dereference → SourceM String
  | .var v => SourceM.varName v
  | .index base index _ => do
    let whole ← Rvalue.source base
    let place ← Rvalue.source index
    pure (whole ++ "[" ++ place ++ "]")
  | .field base name _ => do
    let whole ← Rvalue.source base
    pure (whole ++ "." ++ name)
termination_by structural d => d

/-- A texture lookup in source.  A coordinate can have four components at most. -/
def Texture.source : Texture → SourceM String
  | ⟨lookup, _, sampler, coordinate, offsets, projector, comparator⟩ =>
    match sampler.ty.sampler? with
    | none => do
      SourceM.placeholder (.lookupThrough sampler.ty)
      let through ← Dereference.source sampler
      let place ← Rvalue.source coordinate
      pure (lookup.name ++ argumentList [through, place])
    | some s => do
      let through ← Dereference.source sampler
      let size := coordinateSize s coordinate.ty comparator.isSome projector.isSome
      if (comparator.isSome || projector.isSome) && 4 < size then
        SourceM.placeholder (.wideCoordinate size)
      let place ← Rvalue.source coordinate
      let compared ← Rvalue.sourceOption comparator
      let projected ← Rvalue.sourceOption projector
      let levels ← Lookup.sources lookup
      pure (lookup.functionName s projector.isSome offsets.isNonzero
        ++ argumentList ([through, coordinateArgument s size place compared projected]
          ++ lookupArguments lookup s offsets levels))
termination_by structural t => t

/-- What chooses the level of detail, in source. -/
def Lookup.sources : Lookup → SourceM (List String)
  | .plain => pure []
  | .bias amount => do
    let text ← Rvalue.source amount
    pure [text]
  | .level lod => do
    let text ← Rvalue.source lod
    pure [text]
  | .gradient dx dy => do
    let x ← Rvalue.source dx
    let y ← Rvalue.source dy
    pure [x, y]
  | .fetch lod => do
    let text ← Rvalue.source lod
    pure [text]
termination_by structural lookup => lookup

end

end Shading
