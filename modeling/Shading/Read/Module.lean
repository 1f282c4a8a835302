/-
  Shading.Read.Module — modules from text.

  A module is read in two passes.  The first looks at the functions on the top level and registers
  their overloads; the second reads everything, and so finds the functions that are defined further
  down.  The first pass can be left out.

  A module lists its instructions in the order of the text.  A function stands where it first
  occurs; one that first occurs inside another instruction stands after it.
-/
import Shading.Read.Instruction

namespace Shading

/-- A place in a module: an instruction, or the function at a place among those met. -/
inductive Item where
  | instruction (i : Instruction)
  | function (slot : Nat)

namespace Read

/-! ## §1. Items -/

/-- The instructions of a document: its S-expressions, or, if there is only one and that is a list
    without a tag, the items of that list. -/
def documentNodes : List Node → List Node
  | [.list []] => []
  | [.list (.symbol name :: rest)] => [.list (.symbol name :: rest)]
  | [.list (node :: rest)] => node :: rest
  | nodes => nodes

/-- Registers the overloads of the functions on the top level. -/
def scanPrototypes (cx : Context) : List Node → ReadM Unit
  | [] => pure ()
  | whole@(.list (.symbol "function" :: parts)) :: rest => do
    let _ ← readFunction cx true whole parts
    scanPrototypes cx rest
  | _ :: rest => scanPrototypes cx rest

/-- Reads one node of the top level: the instruction it is, or the place of the function it is. -/
def readTop (cx : Context) : Node → ReadM (Option Instruction × Option Nat)
  | whole@(.list (.symbol "function" :: parts)) => do
    let slot ← readFunction cx false whole parts
    pure (none, some slot)
  | node => do
    let i ← readInstruction cx node
    pure (i, none)

/-- The functions that are to be placed after a node: the one it is, then those first met in it,
    unless they have a place. -/
def unplaced (placed : List Nat) (top : Option Nat) (seen count : Nat) : List Nat :=
  ((top.toList ++ List.range' seen (count - seen)).filter (· ∉ placed)).eraseDups

/-- Reads the nodes of the top level.  `placed` are the functions that have a place, `seen` counts
    those met. -/
def readItems (cx : Context) (placed : List Nat) (seen : Nat) : List Node → ReadM (List Item)
  | [] => pure []
  | node :: rest => do
    let (i, top) ← readTop cx node
    let s ← get
    let count := s.functions.length
    let fresh := unplaced placed top seen count
    let items ← readItems cx (fresh ++ placed) count rest
    pure (i.toList.map .instruction ++ fresh.map .function ++ items)

/-- The instruction of an item. -/
def resolve (functions : List Function) : Item → Option Instruction
  | .instruction i => some i
  | .function slot => functions[slot]?.map (·.toInstruction)

/-- Reads the nodes of a document. -/
def readDocument (scan : Bool) (nodes : List Node) : ReadM (List Instruction) := do
  let s ← get
  let cx : Context := ⟨none, none, s.symbols.depth⟩
  if scan then
    ReadM.note (.scanning nodes.length)
    scanPrototypes cx nodes
  ReadM.note (.reading nodes.length)
  let s ← get
  let items ← readItems cx [] s.functions.length nodes
  let s ← get
  ReadM.note (.finished items.length s.functions.length)
  pure (items.filterMap (resolve s.functions))

end Read

/-! ## §2. Reading a text -/

/-- A compilation unit between two reads: what it has numbered, and what its names stand for. -/
structure CompilationUnit where
  storage : Storage
  symbols : SymbolTable
deriving DecidableEq, Inhabited

/-- A compilation unit in which the built-in types are known. -/
def CompilationUnit.fresh : CompilationUnit := ⟨{}, .withBuiltins⟩

/-- What reading a text gives: the instructions or the error, the unit after it, and what was noted.
    -/
structure ReadResult where
  outcome : Except ReadError (List Instruction)
  after : CompilationUnit
  notes : List ReadNote

/-- Reads a module.  Its variables and functions are bound in the unit, also if reading fails
    further down. -/
def readModule (scan : Bool) (u : CompilationUnit) (text : String) : ReadResult :=
  match readExpressions text with
  | .error e => ⟨.error ⟨.sexp e, none, none⟩, u, []⟩
  | .ok nodes =>
    let (outcome, s) :=
      (Read.readDocument scan (Read.documentNodes nodes)).run.run ⟨u.storage, u.symbols, [], []⟩
    ⟨outcome, ⟨s.storage, s.symbols⟩, s.notes.reverse⟩

end Shading
