/-
  Shading.Read.Rvalue — types, constants and rvalues from S-expressions.

  Reading a value looks names up and changes nothing, so the functions here are pure: an `Env` says
  what names stand for and which function's body is being read, for the error.  Each function has a
  clause per well-formed shape; whatever is left over is handed to a function that says what is
  wrong with it.
-/
import Shading.Ir.Rvalue
import Shading.Read.Error
import Shading.Scope

namespace Shading

/-! ## §1. The environment -/

/-- What a value is read in. -/
structure Env where
  symbols : SymbolTable
  function : Option String

namespace Env

/-- The error for a problem with a node. -/
def error (env : Env) (node : Node) (p : Problem) : ReadError := ⟨p, env.function, some node⟩

/-- Fails. -/
def fail {α : Type} (env : Env) (node : Node) (p : Problem) : Except ReadError α :=
  .error (env.error node p)

/-- Fails if there is nothing. -/
def require {α : Type} (env : Env) (node : Node) (p : Problem) : Option α → Except ReadError α
  | some a => .ok a
  | none => env.fail node p

/-- Fails unless the condition holds. -/
def assert (env : Env) (node : Node) (p : Problem) (condition : Bool) : Except ReadError Unit :=
  if condition then .ok () else env.fail node p

/-- Turns a fault into an error. -/
def check {α : Type} (env : Env) (node : Node) : Except Fault α → Except ReadError α
  | .ok a => .ok a
  | .error f => env.fail node (.fault f)

end Env

/-! ## §2. Types -/

/-- The array length that a node gives: a positive integer of 32 bits. -/
def arrayLength? : Node → Option UInt32
  | .int n => if 0 < n.toInt ∧ n.toInt < UInt32.size then some (.ofNat n.toInt.toNat) else none
  | _ => none

/-- What is wrong with a node that is no type. -/
def typeProblem : Node → Problem
  | .list (.symbol "array" :: _) => .count .arrayType
  | .list (.symbol "struct" :: _) => .unsupported .structTypes
  | .list (.symbol head :: _) => .otherTypeForm head
  | .list _ => .expected .typeForm
  | _ => .expected .type

/-- Reads a type: a name, or an array of a type. -/
def readType (env : Env) : Node → Except ReadError Ty
  | whole@(.symbol name) => env.require whole (.invalidType name) (env.symbols.findType? name)
  | whole@(.list [.symbol "array", element, length]) => do
    let element ← readType env element
    let length ← env.require whole (.expected .arraySize) (arrayLength? length)
    .ok (.array element length)
  | node => env.fail node (typeProblem node)
termination_by structural node => node

/-! ## §3. Constants -/

/-- The number nearest to a node's, if it is finite. -/
def single? (node : Node) : Option Single :=
  node.number?.bind fun x =>
    let y := x.convert .single
    if y.isFinite then some y else none

/-- A node's integer, if it fits into 32 bits. -/
def int32? (node : Node) : Option Int32 :=
  node.int?.bind fun n =>
    if Int32.minValue.toInt ≤ n.toInt ∧ n.toInt ≤ Int32.maxValue.toInt then some (.ofInt n.toInt)
    else none

/-- A node's integer, if it is not negative and fits into 32 bits. -/
def uint32? (node : Node) : Option UInt32 :=
  node.int?.bind fun n =>
    if 0 ≤ n.toInt ∧ n.toInt < UInt32.size then some (.ofNat n.toInt.toNat) else none

/-- A node's truth value: every integer but zero is true. -/
def bool? (node : Node) : Option Bool := node.int?.map (· != 0)

/-- The components that the nodes give. -/
def readNumbers {α : Type} (env : Env) (whole : Node) (number? : Node → Option α) :
    List Node → Except ReadError (List α)
  | [] => .ok []
  | node :: rest => do
    let x ← env.require whole (.invalidValue node) (number? node)
    let xs ← readNumbers env whole number? rest
    .ok (x :: xs)

/-- A constant that is no array, from the nodes of its components. -/
def readComponents (env : Env) (whole : Node) (ty : Ty) (values : List Node) :
    Except ReadError Constant := do
  env.assert whole (.expected .fewerValues) (values.length ≤ 16)
  match ty.base with
  | .float => do
    let xs ← readNumbers env whole single? values
    env.check whole (Constant.float ty xs)
  | .int => do
    let xs ← readNumbers env whole int32? values
    env.check whole (Constant.int ty xs)
  | .uint => do
    let xs ← readNumbers env whole uint32? values
    env.check whole (Constant.uint ty xs)
  | .bool => do
    let xs ← readNumbers env whole bool? values
    env.check whole (Constant.bool ty xs)
  | .struct => env.fail whole (.unsupported .structConstants)
  | _ => env.fail whole (.noConstants ty)

mutual

/-- Reads a constant: its type, and the list of its components or elements. -/
def readConstant (env : Env) : Node → Except ReadError Constant
  | whole@(.list [.symbol "constant", ty, .list values]) => do
    let ty ← readType env ty
    if ty.element?.isSome then do
      let elements ← readElements env values
      env.check whole (Constant.array ty elements)
    else readComponents env whole ty values
  | whole@(.list [.symbol "constant", ty, _]) => do
    let _ ← readType env ty
    env.fail whole (.expected .constantValues)
  | node => env.fail node (.count .constant)
termination_by structural node => node

/-- Reads the elements of an array constant. -/
def readElements (env : Env) : List Node → Except ReadError (List Constant)
  | [] => .ok []
  | node :: rest => do
    env.assert node (.expected .arrayElement) (node.head? == some "constant")
    let c ← readConstant env node
    let cs ← readElements env rest
    .ok (c :: cs)
termination_by structural nodes => nodes

end

/-! ## §4. Rvalues -/

/-- What is wrong with a node that is no rvalue. -/
def rvalueProblem : Node → Problem
  | .list [.symbol "call", _, _] => .shape .call
  | .list (.symbol tag :: _) =>
    match tag with
    | "expression" => .count .expression
    | "swiz" => .count .swizzle
    | "var_ref" => .count .varRef
    | "array_ref" => .count .arrayRef
    | "record_ref" => .unsupported .recordReferences
    | "call" => .count .call
    | "tex" => .count .plainLookup
    | "txf" => .count .fetch
    | "txb" | "txl" | "txd" => .count .otherLookup
    | "declare" | "function" | "signature" | "parameters" | "assign" | "if" | "loop" | "return"
    | "array" | "struct" => .expected .rvalue
    | name => .unknownTag name
  | .list (_ :: _) => .expected .tag
  | _ => .expected .rvalueList

/-- The dereference that a value is. -/
def asDereference (env : Env) (node : Node) (part : Part) : Rvalue → Except ReadError Dereference
  | .dereference d => .ok d
  | _ => env.fail node (.expected part)

/-- A node's integer, if it fits into 8 bits. -/
def int8? (node : Node) : Option Int8 :=
  node.int?.bind fun n =>
    if Int8.minValue.toInt ≤ n.toInt ∧ n.toInt ≤ Int8.maxValue.toInt then some (.ofInt n.toInt)
    else none

/-- Reads the three offsets of a lookup. -/
def readOffsets (env : Env) : Node → Except ReadError Offsets
  | .list [x, y, z] => do
    let x' ← env.require (.list [x, y, z]) (.invalidOffset x) (int8? x)
    let y' ← env.require (.list [x, y, z]) (.invalidOffset y) (int8? y)
    let z' ← env.require (.list [x, y, z]) (.invalidOffset z) (int8? z)
    .ok ⟨x', y', z'⟩
  | node => env.fail node (.expected .offsets)

/-- Is the node the projector that divides by nothing? -/
def isUnitProjector : Node → Bool
  | .int n => n == 1
  | _ => false

/-- The kinds of lookups, by their tags. -/
inductive LookupTag where
  | plain
  | bias
  | level
  | gradient
  | fetch
deriving DecidableEq, Repr

namespace LookupTag

/-- The kind of that tag. -/
def ofName? : String → Option LookupTag
  | "tex" => some plain
  | "txb" => some bias
  | "txl" => some level
  | "txd" => some gradient
  | "txf" => some fetch
  | _ => none

/-- How many parts follow the offsets. -/
def extras : LookupTag → Nat
  | plain => 2
  | bias | level | gradient => 3
  | fetch => 1

/-- The form of such a lookup. -/
def form : LookupTag → Form
  | plain => .plainLookup
  | bias | level | gradient => .otherLookup
  | fetch => .fetch

end LookupTag

/-- The call that the arguments choose among the overloads of the function. -/
def resolveCall (env : Env) (node : Node) (name : String) (args : List Rvalue) :
    Except ReadError Rvalue := do
  let f ← env.require node (.undefinedFunction name) (env.symbols.findFunction? name)
  let i ← env.require node (.noMatchingSignature name) (f.matching? (args.map (·.ty)))
  .ok (.call f.name i ((f.overloads[i]?.map (·.returnType)).getD .error) args)

mutual

/-- Reads an rvalue. -/
def readRvalue (env : Env) : Node → Except ReadError Rvalue
  | whole@(.list (.symbol "expression" :: ty :: op :: operands)) => do
    env.assert whole (.count .expression) (operands.length == 1 || operands.length == 2)
    let ty ← readType env ty
    let name ← env.require whole (.expected .operatorName) op.symbol?
    let op ← env.require whole (.invalidOperator name) (Operator.ofName? name)
    env.assert whole (.operandCount op operands.length) (operands.length == op.arity)
    let operands ← readRvalues env operands
    env.check whole (Rvalue.mkExpression op ty operands)
  | whole@(.list [.symbol "swiz", mask, value]) => do
    let text ← env.require whole (.expected .swizzleMask) mask.symbol?
    let mask ← env.check whole (SwizzleMask.parse text)
    let value ← readRvalue env value
    env.check whole (Rvalue.mkSwizzle value mask)
  | whole@(.list (.symbol "constant" :: _)) => do
    let c ← readConstant env whole
    .ok (.constant c)
  | whole@(.list [.symbol "var_ref", .symbol name]) => do
    let v ← env.require whole (.undeclaredVariable name) (env.symbols.findVariable? name)
    let d ← env.check whole (Dereference.mkVariable v)
    .ok (.dereference d)
  | whole@(.list [.symbol "array_ref", base, index]) => do
    let base ← readRvalue env base
    let index ← readRvalue env index
    let d ← env.check whole (Dereference.mkIndex base index)
    .ok (.dereference d)
  | whole@(.list [.symbol "call", .symbol name, .list args]) => do
    let args ← readRvalues env args
    resolveCall env whole name args
  | whole@(.list (.symbol tag :: sampler :: coordinate :: offsets :: extras)) =>
    match LookupTag.ofName? tag with
    | none => env.fail whole (rvalueProblem whole)
    | some tag => do
      env.assert whole (.count tag.form) (extras.length == tag.extras)
      let s ← readRvalue env sampler
      let s ← asDereference env sampler .sampler s
      let c ← readRvalue env coordinate
      let offsets ← readOffsets env offsets
      let lookup ← readLookup env tag extras
      let t ← env.check whole (Texture.mkTexture lookup s c)
      let (projector, comparator) ← readModifiers env extras
      .ok (.texture { t with offsets, projector, comparator })
  | node => env.fail node (rvalueProblem node)
termination_by structural node => node

/-- Reads rvalues from the first to the last. -/
def readRvalues (env : Env) : List Node → Except ReadError (List Rvalue)
  | [] => .ok []
  | node :: rest => do
    let r ← readRvalue env node
    let rs ← readRvalues env rest
    .ok (r :: rs)
termination_by structural nodes => nodes

/-- Reads how a lookup chooses the level of detail, from what follows its offsets. -/
def readLookup (env : Env) (tag : LookupTag) : List Node → Except ReadError Lookup
  | [lod] => do
    let lod ← readRvalue env lod
    .ok (.fetch lod)
  | [_, _, x] =>
    match tag with
    | .bias => do
      let x ← readRvalue env x
      .ok (.bias x)
    | .level => do
      let x ← readRvalue env x
      .ok (.level x)
    | _ => readGradient env x
  | _ => .ok .plain
termination_by structural extras => extras

/-- Reads the two derivatives of a lookup. -/
def readGradient (env : Env) : Node → Except ReadError Lookup
  | .list [dx, dy] => do
    let dx ← readRvalue env dx
    let dy ← readRvalue env dy
    .ok (.gradient dx dy)
  | node => env.fail node (.expected .gradient)
termination_by structural node => node

/-- Reads the projector and the comparator of a lookup, from what follows its offsets; a fetch has
    neither. -/
def readModifiers (env : Env) :
    List Node → Except ReadError (Option Rvalue × Option Rvalue)
  | projector :: comparator :: _ => do
    let p ← if isUnitProjector projector then .ok none else some <$> readRvalue env projector
    if comparator.isEmptyList then .ok (p, none)
    else do
      env.assert comparator (.expected .comparator) comparator.list?.isSome
      let c ← readRvalue env comparator
      .ok (p, some c)
  | _ => .ok (none, none)
termination_by structural extras => extras

end

end Shading
