/-
  Shading.Read.Error — what can be wrong with the textual form.

  A `Problem` is what is wrong, a `ReadError` adds where: the function whose body was being read,
  and the S-expression at fault.  Every wording is in this module.
-/
import Shading.Ir.Fault
import Shading.Sexp.Read

namespace Shading

/-! ## §1. Kinds -/

/-- The kinds of problems. -/
inductive ProblemKind where
  /-- The text is not made of S-expressions. -/
  | syntactic
  /-- A list has the wrong number of parts for its tag. -/
  | arity
  /-- A list has a tag that means nothing. -/
  | unknownTag
  /-- A name of a type, variable, function or operator is not bound. -/
  | unresolvedSymbol
  /-- The form exists but cannot be read. -/
  | unsupportedFeature
  /-- The parts of a form are not what they should be. -/
  | malformed
  /-- An instruction cannot stand where it does. -/
  | invariantViolation
deriving DecidableEq, Repr

/-! ## §2. Forms -/

/-- The forms that have a fixed number of parts. -/
inductive Form where
  | function
  | signature
  | declare
  | arrayType
  | assign
  | branch
  | loop
  | ret
  | expression
  | swizzle
  | constant
  | varRef
  | arrayRef
  | call
  | plainLookup
  | fetch
  | otherLookup
deriving DecidableEq, Repr

/-- What the form looks like. -/
def Form.shape : Form → String
  | function => "(function <name> (signature ...) ...)"
  | signature => "(signature <type> (parameters ...) (<instruction> ...))"
  | declare => "(declare (<qualifiers>) <type> <name>)"
  | arrayType => "type (array <type> <int>)"
  | assign => "(assign <condition> (<write mask>) <lhs> <rhs>)"
  | branch => "(if <condition> (<then> ...) (<else> ...))"
  | loop => "(loop <counter> <from> <to> <increment> <body>)"
  | ret => "(return) or (return <rvalue>)"
  | expression => "(expression <type> <operator> <operand> [<operand>])"
  | swizzle => "(swiz <field> <rvalue>)"
  | constant => "(constant <type> (<value> ...))"
  | varRef => "(var_ref <variable name>)"
  | arrayRef => "(array_ref <rvalue> <index>)"
  | call => "(call <name> (<argument> ...))"
  | plainLookup => "(tex <sampler> <coordinate> (<offsets>) <projector> <comparator>)"
  | fetch => "(txf <sampler> <coordinate> (<offsets>) <lod>)"
  | otherLookup =>
    "(<op> <sampler> <coordinate> (<offsets>) <projector> <comparator> <lod>)"

/-- The parts of forms that something else stands in place of. -/
inductive Part where
  | block
  | functionName
  | signature
  | parameters
  | qualifiers
  | variableName
  | qualifier
  | type
  | typeForm
  | arraySize
  | writeMask
  | leftHandSide
  | counter
  | terminator
  | loopControl
  | rvalueList
  | rvalue
  | operatorName
  | swizzleMask
  | constantValues
  | arrayElement
  | fewerValues
  | sampler
  | offsets
  | gradient
  | comparator
  | tag
deriving DecidableEq, Repr

/-- What should have stood there. -/
def Part.expectation : Part → String
  | block => "expected (<instruction> ...); found an atom"
  | functionName => "expected (function <name> ...)"
  | signature => "expected (signature ...)"
  | parameters => "expected (parameters ...)"
  | qualifiers => "expected a list of variable qualifiers"
  | variableName => "expected a variable name"
  | qualifier => "qualifier list must contain only symbols"
  | type => "expected <type> (symbol or list)"
  | typeForm => "expected type (array ...) or (struct ...)"
  | arraySize => "expected a positive integer array size"
  | writeMask => "expected () or (<write mask>)"
  | leftHandSide => "expected a dereference on the left-hand side"
  | counter => "expected (<counter variable>)"
  | terminator => "expected () or (<comparison> <rvalue>)"
  | loopControl => "loop controls must be () or a list"
  | rvalueList => "expected (<rvalue> ...)"
  | rvalue => "expected an rvalue"
  | operatorName => "expected an operator name"
  | swizzleMask => "expected a swizzle mask"
  | constantValues => "expected (constant <type> (...))"
  | arrayElement => "expected (constant <type> ...) for an array element"
  | fewerValues => "expected at most 16 values"
  | sampler => "expected a dereference of a sampler"
  | offsets => "expected (<int> <int> <int>)"
  | gradient => "expected (<dPdx> <dPdy>) in (txd ...)"
  | comparator => "expected () or a shadow comparator"
  | tag => "expected a tag"

/-- What exists but cannot be read. -/
inductive Feature where
  | structTypes
  | recordReferences
  | structConstants
deriving DecidableEq, Repr

/-- The feature in words. -/
def Feature.text : Feature → String
  | structTypes => "struct types"
  | recordReferences => "record references"
  | structConstants => "struct constants"

/-! ## §3. Problems -/

/-- What is wrong. -/
inductive Problem where
  /-- The text is not made of S-expressions. -/
  | sexp (e : SexpError)
  /-- The form has another number of parts. -/
  | count (form : Form)
  /-- The form has parts of another kind. -/
  | shape (form : Form)
  /-- Something else stands in place of a part. -/
  | expected (part : Part)
  /-- The node is no instruction. -/
  | invalidInstruction
  | unknownTag (name : String)
  | unknownQualifier (name : String)
  | invalidType (name : String)
  | otherTypeForm (head : String)
  | undeclaredVariable (name : String)
  | invalidOperator (name : String)
  | operandCount (op : Operator) (found : Nat)
  | notComparison (name : String)
  | invalidValue (node : Node)
  | invalidOffset (node : Node)
  | noConstants (ty : Ty)
  | undefinedFunction (name : String)
  | noMatchingSignature (name : String)
  | qualifierMismatch (function parameter : String)
  | returnMismatch (function : String)
  | redefined (function : String)
  | notInScope (function : String)
  | unsupported (feature : Feature)
  /-- The parts are there but do not go together. -/
  | fault (f : Fault)

namespace Problem

/-- The kind of the problem. -/
def kind : Problem → ProblemKind
  | sexp _ => .syntactic
  | count _ | operandCount _ _ | fault (.operandCount _ _) => .arity
  | unknownTag _ => .unknownTag
  | invalidType _ | undeclaredVariable _ | invalidOperator _ | undefinedFunction _
  | noMatchingSignature _ => .unresolvedSymbol
  | unsupported _ => .unsupportedFeature
  | notInScope _ | fault (.noEnclosingLoop _) => .invariantViolation
  | _ => .malformed

/-- The problem in words. -/
def message : Problem → String
  | sexp e => "couldn't parse S-expression: " ++ e.message
  | count form => "expected " ++ form.shape
  | shape form => "expected " ++ form.shape
  | expected part => part.expectation
  | invalidInstruction => "invalid instruction"
  | unknownTag name => "unknown tag: " ++ name
  | unknownQualifier name => "unknown qualifier: " ++ name
  | invalidType name => "invalid type: " ++ name
  | otherTypeForm head => "expected (array ...) or (struct ...); found (" ++ head ++ " ...)"
  | undeclaredVariable name => "undeclared variable: " ++ name
  | invalidOperator name => "invalid operator: " ++ name
  | operandCount op found =>
    "operator " ++ op.name ++ " takes " ++ toString op.arity ++ " operand(s), found "
      ++ toString found
  | notComparison name => "expected a comparison; found " ++ name
  | invalidValue node => "invalid constant value " ++ node.text
  | invalidOffset node => "invalid texel offset " ++ node.text
  | noConstants ty => "cannot construct a constant of type " ++ ty.text
  | undefinedFunction name => "found call to undefined function " ++ name
  | noMatchingSignature name => "couldn't find matching signature for function " ++ name
  | qualifierMismatch function parameter =>
    "function " ++ function ++ " parameter " ++ parameter ++ " qualifiers don't match prototype"
  | returnMismatch function => "function " ++ function ++ " return type doesn't match prototype"
  | redefined function => "function " ++ function ++ " redefined"
  | notInScope function => "function " ++ function ++ " is no longer in scope"
  | unsupported feature => feature.text ++ " are not yet supported"
  | fault f => f.message

end Problem

/-- What is wrong, and where. -/
structure ReadError where
  problem : Problem
  function : Option String
  context : Option Node

namespace ReadError

/-- The kind of the error. -/
def kind (e : ReadError) : ProblemKind := e.problem.kind

/-- What is wrong, in words. -/
def message (e : ReadError) : String := e.problem.message

/-- What is wrong and where, in words. -/
def text (e : ReadError) : String :=
  (match e.function with
    | some name => "In function " ++ name ++ ":\n"
    | none => "")
  ++ "error: " ++ e.message
  ++ (match e.context with
    | some node => "\n...in this context:\n   " ++ node.text
    | none => "")

end ReadError

end Shading
