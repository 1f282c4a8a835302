/-
  Shading.Read.Instruction — instructions and functions from S-expressions.

  Reading an instruction can declare variables, number loops and extend functions, so it changes a
  `ReadState`; what it changed stays changed if it fails later.  Functions are not returned where
  they stand: wherever a function occurs, its overloads are collected under its name in
  `ReadState.functions`, in step with the prototype that the symbol table has for callers.
-/
import Shading.Read.Simple

namespace Shading

/-! ## §1. The state of reading -/

/-- What is worth noting while a module is read. -/
inductive ReadNote where
  | scanning (count : Nat)
  | reading (count : Nat)
  | alreadyDeclared (function : String)
  | finished (items functions : Nat)
deriving DecidableEq, Repr

/-- The note in words. -/
def ReadNote.message : ReadNote → String
  | scanning count => "scanning " ++ toString count ++ " instructions for prototypes"
  | reading count => "reading " ++ toString count ++ " instructions"
  | alreadyDeclared function => "function " ++ function ++ " is already declared"
  | finished items functions =>
    "read " ++ toString items ++ " top-level items, " ++ toString functions
      ++ " of them functions"

/-- What reading changes. -/
structure ReadState where
  storage : Storage
  symbols : SymbolTable
  /-- The functions met so far, in the order in which they were first met. -/
  functions : List Function
  /-- What was noted, the latest first. -/
  notes : List ReadNote

/-- A computation that reads.  The state outlives a failure. -/
abbrev ReadM := ExceptT ReadError (StateM ReadState)

/-- Where an instruction stands. -/
structure Context where
  /-- The function whose body it is part of. -/
  function : Option String
  /-- The innermost loop around it in that body. -/
  enclosing : Option LoopId
  /-- The depth of the scope that functions are bound in. -/
  globalDepth : Nat

namespace ReadM

/-- Notes something. -/
def note (n : ReadNote) : ReadM Unit := modify fun s => { s with notes := n :: s.notes }

/-- What values are read in at this point. -/
def env (cx : Context) : ReadM Env := do
  let s ← get
  pure ⟨s.symbols, cx.function⟩

/-- Fails at a node. -/
def fail {α : Type} (cx : Context) (node : Node) (p : Problem) : ReadM α :=
  throw ⟨p, cx.function, some node⟩

/-- Reads something that changes nothing. -/
def reading {α : Type} (cx : Context) (f : Env → Except ReadError α) : ReadM α := do
  let e ← env cx
  liftExcept (f e)
where
  liftExcept (x : Except ReadError α) : ReadM α :=
    match x with
    | .ok a => pure a
    | .error e => throw e

/-- Makes a variable and binds it in the innermost scope. -/
def declare (v : Variable) : ReadM Var := do
  let s ← get
  let (v, storage) := s.storage.declare v
  set { s with storage, symbols := (s.symbols.addVariable v).2 }
  pure v

/-- Numbers a loop. -/
def newLoop : ReadM LoopId := do
  let s ← get
  let (id, storage) := s.storage.newLoop
  set { s with storage }
  pure id

/-- Runs a computation in a scope of its own, which is closed even if it fails. -/
def inScope {α : Type} (x : ReadM α) : ReadM α := fun s =>
  let (result, s) := x { s with symbols := s.symbols.push }
  (result, { s with symbols := s.symbols.pop })

end ReadM

/-! ## §2. Functions -/

namespace ReadM

/-- The place of a function among those met, which it is added to if it is new.  A function that an
    earlier module declared begins with the overloads known from there; one that nobody declared is
    bound in the scope of the module. -/
def functionSlot (cx : Context) (name : String) : ReadM Nat := do
  let s ← get
  match s.functions.findIdx? (·.name == name) with
  | some slot => pure slot
  | none =>
    match s.symbols.findFunction? name with
    | some prototype => do
      note (.alreadyDeclared name)
      addFunction ⟨name, prototype.overloads.map fun o =>
        ⟨o.returnType, o.parameters, [], o.isDefined⟩⟩
    | none => do
      modify fun s =>
        { s with symbols := (s.symbols.addFunctionAt cx.globalDepth (.empty name)).2 }
      addFunction ⟨name, []⟩
where
  /-- Adds a function at the end and answers with its place. -/
  addFunction (f : Function) : ReadM Nat := do
    let s ← get
    set { s with functions := s.functions ++ [f] }
    pure s.functions.length

/-- The overloads of a function that were met so far. -/
def signatures (slot : Nat) : ReadM (List Signature) := do
  let s ← get
  pure ((s.functions[slot]?.map (·.signatures)).getD [])

/-- Changes an overload of a function, among the functions met. -/
def modifySignature (slot index : Nat) (f : Signature → Signature) : ReadM Unit :=
  modify fun s =>
    { s with functions := s.functions.modify slot fun g =>
        { g with signatures := g.signatures.modify index f } }

/-- The prototype of a function that is being read. -/
def prototype (cx : Context) (node : Node) (name : String) : ReadM Prototype := do
  let s ← get
  match s.symbols.findFunction? name with
  | some p => pure p
  | none => fail cx node (.notInScope name)

/-- Changes the prototype of a function that is being read. -/
def modifyPrototype (cx : Context) (node : Node) (name : String) (f : Prototype → Prototype) :
    ReadM Unit := do
  let _ ← prototype cx node name
  modify fun s => { s with symbols := s.symbols.modifyFunction name f }

/-- Checks an overload against the one it repeats: qualifiers and return type have to agree. -/
def checkRepeated (cx : Context) (node : Node) (name : String) (known : Signature) (returnType : Ty)
    (parameters : List Var) : ReadM Unit := do
  match (known.parameters.zip parameters).find? fun (a, b) => !a.value.sameQualifiers b.value with
  | some (_, parameter) => fail cx node (.qualifierMismatch name parameter.name)
  | none =>
    if known.returnType = returnType then pure ()
    else fail cx node (.returnMismatch name)

/-- The place of the overload with these parameters, which is added if it is new. -/
def signatureIndex (cx : Context) (node : Node) (slot : Nat) (name : String) (returnType : Ty)
    (parameters : List Var) : ReadM Nat := do
  let p ← prototype cx node name
  let known ← signatures slot
  match p.matching? (parameters.map (·.ty)) with
  | some index => do
    checkRepeated cx node name (known[index]?.getD default) returnType parameters
    pure index
  | none => do
    modify fun s =>
      { s with functions := s.functions.modify slot fun g =>
          { g with signatures := g.signatures ++ [.prototype returnType []] } }
    modifyPrototype cx node name (·.add ⟨returnType, [], false⟩)
    pure known.length

/-- Registers an overload and its parameters; the answer is its place. -/
def register (cx : Context) (node : Node) (slot : Nat) (name : String) (returnType : Ty)
    (parameters : List Var) : ReadM Nat := do
  let index ← signatureIndex cx node slot name returnType parameters
  modifyPrototype cx node name (·.modify index ({ · with parameters }))
  modifySignature slot index ({ · with parameters })
  pure index

/-- Completes an overload with its body. -/
def define (cx : Context) (node : Node) (slot index : Nat) (name : String)
    (body : List Instruction) : ReadM Unit := do
  modifyPrototype cx node name (·.modify index ({ · with isDefined := true }))
  modifySignature slot index ({ · with body, isDefined := true })

end ReadM

/-- The parts of a signature that are there before anything is declared: its return type, and the
    nodes of its parameters. -/
def readSignatureHead (env : Env) (whole ty parameters body : Node) :
    Except ReadError (Ty × List Node) := do
  let ty ← readType env ty
  let items ← env.require whole (.shape .signature) parameters.list?
  env.assert whole (.shape .signature) body.list?.isSome
  env.assert parameters (.expected .parameters) (parameters.head? == some "parameters")
  .ok (ty, items.tail)

/-- Reads declarations and makes their variables, from the first to the last. -/
def readDeclarations (cx : Context) : List Node → ReadM (List Var)
  | [] => pure []
  | node :: rest => do
    let v ← ReadM.reading cx (readVariable · node)
    let v ← ReadM.declare v
    let vs ← readDeclarations cx rest
    pure (v :: vs)

/-! ## §3. Instructions -/

/-- What is wrong with a function that has no name or no signatures. -/
def functionProblem (parts : List Node) : Problem :=
  if parts.length < 2 then .count .function else .expected .functionName

/-- What is wrong with a node that is neither a statement nor an rvalue. -/
def instructionProblem : Node → Option Problem
  | .list (.symbol tag :: _) =>
    match tag with
    | "if" => some (.count .branch)
    | "loop" => some (.count .loop)
    | "signature" | "parameters" | "array" | "struct" => some .invalidInstruction
    | _ => none
  | .list (_ :: _) => none
  | _ => some .invalidInstruction

mutual

/-- Reads an instruction.  For a function, which is collected under its name, there is none to
    return. -/
def readInstruction (cx : Context) : Node → ReadM (Option Instruction)
  | .symbol "break" =>
    ReadM.reading cx fun env =>
      some <$> env.check (.symbol "break") (Instruction.mkJump .break cx.enclosing)
  | .symbol "continue" =>
    ReadM.reading cx fun env =>
      some <$> env.check (.symbol "continue") (Instruction.mkJump .continue cx.enclosing)
  | whole@(.list (.symbol "declare" :: _)) => do
    let v ← ReadM.reading cx (readVariable · whole)
    let v ← ReadM.declare v
    pure (some (.declare v))
  | whole@(.list (.symbol "function" :: parts)) => do
    let _ ← readFunction cx false whole parts
    pure none
  | whole@(.list (.symbol "assign" :: _)) => do
    let a ← ReadM.reading cx (readAssignment · whole)
    pure (some (.assign a))
  | .list [.symbol "if", condition, thenBody, elseBody] => do
    let condition ← ReadM.reading cx (readRvalue · condition)
    let thenBody ← readBlock cx thenBody
    let elseBody ← readBlock cx elseBody
    pure (some (.branch condition thenBody elseBody))
  | whole@(.list [.symbol "loop", counter, start, stop, increment, body]) => do
    let controls ← ReadM.reading cx (readControls · whole counter start stop increment)
    let id ← ReadM.newLoop
    let body ← readBlock { cx with enclosing := some id } body
    pure (some (.loop id controls body))
  | whole@(.list (.symbol "return" :: _)) => do
    let value ← ReadM.reading cx (readReturn · whole)
    pure (some (.ret value))
  | node =>
    match instructionProblem node with
    | some p => ReadM.fail cx node p
    | none => do
      let r ← ReadM.reading cx (readRvalue · node)
      pure (some (.rvalue r))
termination_by structural node => node

/-- Reads the instructions of a block. -/
def readBlock (cx : Context) : Node → ReadM (List Instruction)
  | .list nodes => readInstructions cx nodes
  | node => ReadM.fail cx node (.expected .block)
termination_by structural node => node

/-- Reads instructions from the first to the last. -/
def readInstructions (cx : Context) : List Node → ReadM (List Instruction)
  | [] => pure []
  | node :: rest => do
    let i ← readInstruction cx node
    let is ← readInstructions cx rest
    pure (i.toList ++ is)
termination_by structural nodes => nodes

/-- Reads a function, given by what follows its tag, and answers with its place among those met.  A
    `scan` leaves the bodies out. -/
def readFunction (cx : Context) (scan : Bool) (whole : Node) : List Node → ReadM Nat
  | .symbol name :: signature :: rest => do
    let slot ← ReadM.functionSlot cx name
    readSignature cx scan slot name signature
    readSignatures cx scan slot name rest
    pure slot
  | parts => ReadM.fail cx whole (functionProblem parts)
termination_by structural parts => parts

/-- Reads the signatures of a function from the first to the last. -/
def readSignatures (cx : Context) (scan : Bool) (slot : Nat) (name : String) :
    List Node → ReadM Unit
  | [] => pure ()
  | node :: rest => do
    readSignature cx scan slot name node
    readSignatures cx scan slot name rest
termination_by structural nodes => nodes

/-- Reads a signature.  Its parameters are in scope in its body only.  An empty body says nothing;
    any other completes the overload, which must not be complete yet. -/
def readSignature (cx : Context) (scan : Bool) (slot : Nat) (name : String) : Node → ReadM Unit
  | whole@(.list [.symbol "signature", ty, parameters, body]) => do
    let (returnType, declarations) ←
      ReadM.reading cx (readSignatureHead · whole ty parameters body)
    ReadM.inScope do
      let parameters ← readDeclarations cx declarations
      let index ← ReadM.register cx whole slot name returnType parameters
      if scan || body.isEmptyList then pure ()
      else do
        let known ← ReadM.signatures slot
        if (known[index]?.map (·.isDefined)).getD false then
          ReadM.fail cx whole (.redefined name)
        else do
          let instructions ←
            readBlock { cx with function := some name, enclosing := none } body
          ReadM.define cx whole slot index name instructions
  | whole@(.list (.symbol "signature" :: _)) => ReadM.fail cx whole (.count .signature)
  | node => ReadM.fail cx node (.expected .signature)
termination_by structural node => node

end

end Shading
