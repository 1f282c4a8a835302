/-
  Shading.Proofs.Read.Watch — reading that is watched.

  A watched reading goes through a module as the reader does and keeps a log: the states of the
  reader before and after each call that reads an instruction, a function or a signature, also of a
  call that fails.  It stops where the reader is about to use an overload that is not there.
-/
import Shading.Proofs.Read.Run

namespace Shading

/-! ## §1. Steps and calls -/

/-- Why a watched reading stops. -/
inductive Stop where
  /-- The reader fails. -/
  | failed (e : ReadError)
  /-- The reader is about to use an overload that is not there. -/
  | outOfRange

/-- The state of a watched reading. -/
structure Watched where
  state : ReadState
  /-- The states in which calls began and ended, the latest first. -/
  seen : List ReadState

/-- A computation that reads and is watched. -/
abbrev WatchM := ExceptT Stop (StateM Watched)

/-- Does the function have an overload at that place, both among those met and in its prototype? -/
def ReadState.hasOverload (s : ReadState) (slot : Nat) (name : String) (index : Nat) : Bool :=
  decide (index < (s.signatures slot).length)
    && (s.symbols.findFunction? name).any fun p => decide (index < p.overloads.length)

namespace WatchM

variable {α : Type}

/-- A step of the reader in which no call is made. -/
def step (x : ReadM α) : WatchM α := fun w =>
  let (result, s) := x.run.run w.state
  (result.mapError .failed, ⟨s, w.seen⟩)

/-- A call: the states before and after it are logged. -/
def call (x : WatchM α) : WatchM α := fun w =>
  let (result, w) := x.run.run ⟨w.state, w.state :: w.seen⟩
  (result, ⟨w.state, w.state :: w.seen⟩)

/-- Runs a computation in a scope of its own, which is closed even if it stops. -/
def inScope (x : WatchM α) : WatchM α := fun w =>
  let (result, w) := x.run.run ⟨w.state.opened, w.seen⟩
  (result, ⟨w.state.closed, w.seen⟩)

/-- Stops unless the overload is there. -/
def inRange (slot : Nat) (name : String) (index : Nat) : WatchM Unit := fun w =>
  (if w.state.hasOverload slot name index then .ok () else .error .outOfRange, w)

/-- Registers an overload.  The one that it repeats is looked at, and the one that it registers gets
    its parameters. -/
def register (cx : Context) (node : Node) (slot : Nat) (name : String) (returnType : Ty)
    (parameters : List Var) : WatchM Nat := do
  let p ← step (ReadM.prototype cx node name)
  (p.matching? (parameters.map (·.ty))).forM (inRange slot name)
  let index ← step (ReadM.register cx node slot name returnType parameters)
  inRange slot name index
  pure index

end WatchM

/-! ## §2. The watched reader -/

mutual

/-- Reads an instruction.  Calls are made for functions, branches and loops only. -/
def watchInstruction (cx : Context) : Node → WatchM (Option Instruction)
  | whole@(.list (.symbol "function" :: parts)) => WatchM.call do
    let _ ← watchFunction cx false whole parts
    pure none
  | .list [.symbol "if", condition, thenBody, elseBody] => WatchM.call do
    let condition ← WatchM.step (ReadM.reading cx (readRvalue · condition))
    let thenBody ← watchBlock cx thenBody
    let elseBody ← watchBlock cx elseBody
    pure (some (.branch condition thenBody elseBody))
  | whole@(.list [.symbol "loop", counter, start, stop, increment, body]) => WatchM.call do
    let controls ←
      WatchM.step (ReadM.reading cx (readControls · whole counter start stop increment))
    let id ← WatchM.step ReadM.newLoop
    let body ← watchBlock { cx with enclosing := some id } body
    pure (some (.loop id controls body))
  | node => WatchM.call (WatchM.step (readInstruction cx node))

/-- Reads the instructions of a block. -/
def watchBlock (cx : Context) : Node → WatchM (List Instruction)
  | .list nodes => watchInstructions cx nodes
  | node => WatchM.step (ReadM.fail cx node (.expected .block))

/-- Reads instructions from the first to the last. -/
def watchInstructions (cx : Context) : List Node → WatchM (List Instruction)
  | [] => pure []
  | node :: rest => do
    let i ← watchInstruction cx node
    let is ← watchInstructions cx rest
    pure (i.toList ++ is)

/-- Reads a function, given by what follows its tag. -/
def watchFunction (cx : Context) (scan : Bool) (whole : Node) : List Node → WatchM Nat
  | .symbol name :: signature :: rest => WatchM.call do
    let slot ← WatchM.step (ReadM.functionSlot cx name)
    watchSignature cx scan slot name signature
    watchSignatures cx scan slot name rest
    pure slot
  | parts => WatchM.call (WatchM.step (ReadM.fail cx whole (functionProblem parts)))

/-- Reads the signatures of a function from the first to the last. -/
def watchSignatures (cx : Context) (scan : Bool) (slot : Nat) (name : String) :
    List Node → WatchM Unit
  | [] => pure ()
  | node :: rest => do
    watchSignature cx scan slot name node
    watchSignatures cx scan slot name rest

/-- Reads a signature.  Its overload is used three times: when it is registered, to see whether it
    is complete, and to complete it after its body has been read. -/
def watchSignature (cx : Context) (scan : Bool) (slot : Nat) (name : String) : Node → WatchM Unit
  | whole@(.list [.symbol "signature", ty, parameters, body]) => WatchM.call do
    let (returnType, declarations) ←
      WatchM.step (ReadM.reading cx (readSignatureHead · whole ty parameters body))
    WatchM.inScope do
      let parameters ← WatchM.step (readDeclarations cx declarations)
      let index ← WatchM.register cx whole slot name returnType parameters
      if scan || body.isEmptyList then pure ()
      else do
        let known ← WatchM.step (ReadM.signatures slot)
        WatchM.inRange slot name index
        if (known[index]?.map (·.isDefined)).getD false then
          WatchM.step (ReadM.fail cx whole (.redefined name))
        else do
          let instructions ←
            watchBlock { cx with function := some name, enclosing := none } body
          WatchM.inRange slot name index
          WatchM.step (ReadM.define cx whole slot index name instructions)
  | node => WatchM.call (WatchM.step (readSignature cx scan slot name node))

end

/-! ## §3. Watched modules -/

/-- Registers the overloads of the functions on the top level. -/
def watchScan (cx : Context) : List Node → WatchM Unit
  | [] => pure ()
  | whole@(.list (.symbol "function" :: parts)) :: rest => do
    let _ ← watchFunction cx true whole parts
    watchScan cx rest
  | _ :: rest => watchScan cx rest

/-- Reads one node of the top level. -/
def watchTop (cx : Context) : Node → WatchM (Option Instruction × Option Nat)
  | whole@(.list (.symbol "function" :: parts)) => do
    let slot ← watchFunction cx false whole parts
    pure (none, some slot)
  | node => do
    let i ← watchInstruction cx node
    pure (i, none)

/-- Reads the nodes of the top level. -/
def watchItems (cx : Context) (placed : List Nat) (seen : Nat) : List Node → WatchM (List Item)
  | [] => pure []
  | node :: rest => do
    let (i, top) ← watchTop cx node
    let s ← WatchM.step get
    let count := s.functions.length
    let fresh := Read.unplaced placed top seen count
    let items ← watchItems cx (fresh ++ placed) count rest
    pure (i.toList.map .instruction ++ fresh.map .function ++ items)

/-- Reads the nodes of a document. -/
def watchDocument (scan : Bool) (nodes : List Node) : WatchM (List Instruction) := do
  let s ← WatchM.step get
  let cx : Context := ⟨none, none, s.symbols.depth⟩
  if scan then
    WatchM.step (ReadM.note (.scanning nodes.length))
    watchScan cx nodes
  WatchM.step (ReadM.note (.reading nodes.length))
  let s ← WatchM.step get
  let items ← watchItems cx [] s.functions.length nodes
  let s ← WatchM.step get
  WatchM.step (ReadM.note (.finished items.length s.functions.length))
  pure (items.filterMap (Read.resolve s.functions))

/-- What watching the reading of a text gives. -/
structure WatchResult where
  outcome : Except Stop (List Instruction)
  after : CompilationUnit
  notes : List ReadNote
  /-- The states of the reader before and after its calls. -/
  seen : List ReadState

/-- Reads a module and watches. -/
def watchModule (scan : Bool) (u : CompilationUnit) (text : String) : WatchResult :=
  match readExpressions text with
  | .error e => ⟨.error (.failed ⟨.sexp e, none, none⟩), u, [], []⟩
  | .ok nodes =>
    let (outcome, w) :=
      (watchDocument scan (Read.documentNodes nodes)).run.run ⟨⟨u.storage, u.symbols, [], []⟩, []⟩
    ⟨outcome, ⟨w.state.storage, w.state.symbols⟩, w.state.notes.reverse, w.seen⟩

end Shading
