/-
  Shading.Unroll — loops replaced by copies of their bodies.

  An analysis made elsewhere says of each loop how often it runs at most and how many jumps leave
  its body.  A loop that is known to run few times and has no jumps is replaced by that many copies
  of its body; the loops inside of it come first.  Each copy has variables and loops of its own.
-/
import Shading.Ir.Clone

namespace Shading

/-! ## §1. The analysis -/

/-- What is known of a loop. -/
structure LoopInfo where
  /-- How often it runs at most; negative if nobody knows. -/
  maxIterations : Int
  /-- How many jumps leave its body. -/
  jumps : Nat
deriving DecidableEq, Repr, Inhabited

/-- What is known of loops. -/
structure LoopAnalysis where
  entries : List (LoopId × LoopInfo)
deriving DecidableEq, Repr, Inhabited

namespace LoopAnalysis

/-- Nothing is known. -/
def empty : LoopAnalysis := ⟨[]⟩

/-- What is known of a loop. -/
def find? (a : LoopAnalysis) (id : LoopId) : Option LoopInfo := a.entries.lookup id

/-- Records what is known of a loop; the answer is the entry that it replaces. -/
def insert (a : LoopAnalysis) (id : LoopId) (info : LoopInfo) : Option LoopInfo × LoopAnalysis :=
  (a.find? id, ⟨(id, info) :: a.entries.filter (·.1 ≠ id)⟩)

/-- Of how many loops something is known. -/
def size (a : LoopAnalysis) : Nat := a.entries.length

/-- Is nothing known? -/
def isEmpty (a : LoopAnalysis) : Bool := a.entries.isEmpty

end LoopAnalysis

/-! ## §2. Unrolling -/

/-- A loop that the analysis has forgotten. -/
structure MissingAnalysis where
  id : LoopId
deriving DecidableEq, Repr

/-- The error in words. -/
def MissingAnalysis.message (e : MissingAnalysis) : String :=
  "loop " ++ e.id.text ++ " has no analysis entry"

/-- A loop that was replaced by copies of its body. -/
structure UnrollNote where
  id : LoopId
  copies : Nat
deriving DecidableEq, Repr

/-- The note in words. -/
def UnrollNote.message (n : UnrollNote) : String :=
  "unrolling loop " ++ n.id.text ++ " into " ++ toString n.copies ++ " copies of its body"

/-- What is unrolled: loops that the analysis gives at most `most` iterations. -/
structure UnrollPlan where
  analysis : LoopAnalysis
  most : Nat := 32

/-- How many copies replace a loop; none if it stays. -/
def UnrollPlan.copies? (plan : UnrollPlan) (info : LoopInfo) : Option Nat :=
  if 0 ≤ info.maxIterations ∧ info.maxIterations.toNat ≤ plan.most ∧ info.jumps = 0 then
    some info.maxIterations.toNat
  else none

/-- What unrolling changes. -/
structure UnrollState where
  storage : Storage
  /-- What was unrolled, the latest first. -/
  notes : List UnrollNote

/-- A computation that unrolls.  The state outlives a failure. -/
abbrev UnrollM := ExceptT MissingAnalysis (StateM UnrollState)

namespace UnrollM

/-- Copies a block with identities of its own. -/
def copy (body : List Instruction) : UnrollM (List Instruction) := do
  let s ← get
  let (copied, c) := (Instruction.cloneAll body).run ⟨s.storage, .empty⟩
  set { s with storage := c.storage }
  pure copied

/-- That many copies of a block, one after the other, each made for itself. -/
def repeated (body : List Instruction) : Nat → UnrollM (List Instruction)
  | 0 => pure []
  | n + 1 => do
    let first ← copy body
    let others ← repeated body n
    pure (first ++ others)

/-- That many copies of a block, one after the other.  However many are asked for, those of an empty
    block take no work. -/
def copies (body : List Instruction) (n : Nat) : UnrollM (List Instruction) :=
  if body.isEmpty then pure [] else repeated body n

/-- What takes the place of a loop whose body has been dealt with, and whether that is not the loop. -/
def replace (plan : UnrollPlan) (id : LoopId) (controls : Controls) (body : List Instruction) :
    UnrollM (List Instruction × Bool) :=
  match plan.analysis.find? id with
  | none => throw ⟨id⟩
  | some info =>
    match plan.copies? info with
    | none => pure ([.loop id controls body], false)
    | some n => do
      modify fun s => { s with notes := ⟨id, n⟩ :: s.notes }
      let blocks ← copies body n
      pure (blocks, true)

end UnrollM

mutual

/-- What takes the place of an instruction, and whether a loop in it was replaced. -/
def Instruction.unroll (plan : UnrollPlan) : Instruction → UnrollM (List Instruction × Bool)
  | .loop id controls body => do
    let (body, inner) ← Instruction.unrollAll plan body
    let (instructions, outer) ← UnrollM.replace plan id controls body
    pure (instructions, inner || outer)
  | .branch condition thenBody elseBody => do
    let (thenBody, inThen) ← Instruction.unrollAll plan thenBody
    let (elseBody, inElse) ← Instruction.unrollAll plan elseBody
    pure ([.branch condition thenBody elseBody], inThen || inElse)
  | .function name signatures => do
    let (signatures, inside) ← Signature.unrollAll plan signatures
    pure ([.function name signatures], inside)
  | i => pure ([i], false)
termination_by structural i => i

/-- What takes the place of the instructions, and whether a loop in one of them was replaced. -/
def Instruction.unrollAll (plan : UnrollPlan) :
    List Instruction → UnrollM (List Instruction × Bool)
  | [] => pure ([], false)
  | i :: rest => do
    let (first, here) ← Instruction.unroll plan i
    let (others, later) ← Instruction.unrollAll plan rest
    pure (first ++ others, here || later)
termination_by structural is => is

/-- The overload with the loops of its body dealt with, and whether one was replaced. -/
def Signature.unroll (plan : UnrollPlan) : Signature → UnrollM (Signature × Bool)
  | ⟨returnType, parameters, body, isDefined⟩ => do
    let (body, inside) ← Instruction.unrollAll plan body
    pure (⟨returnType, parameters, body, isDefined⟩, inside)
termination_by structural s => s

/-- The overloads with the loops of their bodies dealt with, and whether one was replaced. -/
def Signature.unrollAll (plan : UnrollPlan) : List Signature → UnrollM (List Signature × Bool)
  | [] => pure ([], false)
  | s :: rest => do
    let (s, here) ← Signature.unroll plan s
    let (ss, later) ← Signature.unrollAll plan rest
    pure (s :: ss, here || later)
termination_by structural ss => ss

end

/-- What unrolling a module gives: the new module or the loop without an entry, whether any loop was
    replaced, the storage after it, and the loops that were replaced. -/
structure UnrollResult where
  outcome : Except MissingAnalysis (List Instruction)
  changed : Bool
  storage : Storage
  notes : List UnrollNote

/-- Unrolls the loops of a module. -/
def unrollLoops (plan : UnrollPlan) (storage : Storage) (ir : List Instruction) : UnrollResult :=
  match (Instruction.unrollAll plan ir).run.run ⟨storage, []⟩ with
  | (.ok (ir, changed), s) => ⟨.ok ir, changed, s.storage, s.notes.reverse⟩
  | (.error e, s) => ⟨.error e, false, s.storage, s.notes.reverse⟩

end Shading
