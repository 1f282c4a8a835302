/-
  Shading.Ir.Clone — copies with identities of their own.

  A copy of a piece of intermediate representation declares variables of its own and has loops of
  its own; uses and jumps follow.  What the piece uses without declaring it stays shared.  A
  `Renaming` remembers what has been renewed, so that pieces copied with the same one belong
  together.
-/
import Shading.Ir.Instruction

namespace Shading

/-! ## §1. What has been renewed -/

/-- What has been renewed: variables by their numbers, and loops.  The latest renewal of an identity
    is the one that counts. -/
structure Renaming where
  vars : List (Nat × Var) := []
  loops : List (LoopId × LoopId) := []

namespace Renaming

/-- Nothing renewed. -/
def empty : Renaming := {}

/-- The variable that stands for this one. -/
def var (r : Renaming) (v : Var) : Var := (r.vars.lookup v.id).getD v

/-- The loop that stands for this one. -/
def loop (r : Renaming) (id : LoopId) : LoopId := (r.loops.lookup id).getD id

end Renaming

/-! ## §2. Values -/

mutual

/-- Copies a value. -/
def Rvalue.clone (r : Renaming) : Rvalue → Rvalue
  | .expression op ty operands => .expression op ty (Rvalue.cloneAll r operands)
  | .swizzle value mask ty => .swizzle (Rvalue.clone r value) mask ty
  | .dereference d => .dereference (Dereference.clone r d)
  | .constant c => .constant c
  | .call callee signature ty args => .call callee signature ty (Rvalue.cloneAll r args)
  | .texture t => .texture (Texture.clone r t)
termination_by structural value => value

/-- Copies the values. -/
def Rvalue.cloneAll (r : Renaming) : List Rvalue → List Rvalue
  | [] => []
  | value :: rest => Rvalue.clone r value :: Rvalue.cloneAll r rest
termination_by structural values => values

/-- Copies the value, if there is one. -/
def Rvalue.cloneOption (r : Renaming) : Option Rvalue → Option Rvalue
  | none => none
  | some value => some (Rvalue.clone r value)
termination_by structural value => value

/-- Copies a dereference. -/
def Dereference.clone (r : Renaming) : Dereference → Dereference
  | .var v => .var (r.var v)
  | .index base index ty => .index (Rvalue.clone r base) (Rvalue.clone r index) ty
  | .field base name ty => .field (Rvalue.clone r base) name ty
termination_by structural d => d

/-- Copies a lookup. -/
def Texture.clone (r : Renaming) : Texture → Texture
  | ⟨lookup, ty, sampler, coordinate, offsets, projector, comparator⟩ =>
    ⟨Lookup.clone r lookup, ty, Dereference.clone r sampler, Rvalue.clone r coordinate, offsets,
      Rvalue.cloneOption r projector, Rvalue.cloneOption r comparator⟩
termination_by structural t => t

/-- Copies what chooses the level of detail. -/
def Lookup.clone (r : Renaming) : Lookup → Lookup
  | .plain => .plain
  | .bias amount => .bias (Rvalue.clone r amount)
  | .level lod => .level (Rvalue.clone r lod)
  | .gradient dx dy => .gradient (Rvalue.clone r dx) (Rvalue.clone r dy)
  | .fetch lod => .fetch (Rvalue.clone r lod)
termination_by structural lookup => lookup

end

/-- Copies the parts of an assignment. -/
def Assignment.clone (r : Renaming) (a : Assignment) : Assignment where
  condition := Rvalue.cloneOption r a.condition
  lhs := a.lhs.clone r
  rhs := a.rhs.clone r
  mask := a.mask

/-- Copies a loop's controls. -/
def Controls.clone (r : Renaming) (c : Controls) : Controls where
  counter := c.counter.map r.var
  start := Rvalue.cloneOption r c.start
  stop := Rvalue.cloneOption r c.stop
  increment := Rvalue.cloneOption r c.increment
  comparison := c.comparison

/-! ## §3. Instructions -/

/-- What copying changes. -/
structure CloneState where
  storage : Storage
  renewed : Renaming

/-- A computation that copies. -/
abbrev CloneM := StateM CloneState

namespace CloneM

/-- Renews a variable that is declared. -/
def declare (v : Var) : CloneM Var := do
  let s ← get
  let (fresh, storage) := s.storage.declare v.value
  set (⟨storage, { s.renewed with vars := (v.id, fresh) :: s.renewed.vars }⟩ : CloneState)
  pure fresh

/-- Renews the variables from the first to the last. -/
def declareAll : List Var → CloneM (List Var)
  | [] => pure []
  | v :: rest => do
    let fresh ← declare v
    let others ← declareAll rest
    pure (fresh :: others)

/-- Renews a loop. -/
def newLoop (id : LoopId) : CloneM LoopId := do
  let s ← get
  let (fresh, storage) := s.storage.newLoop
  set (⟨storage, { s.renewed with loops := (id, fresh) :: s.renewed.loops }⟩ : CloneState)
  pure fresh

/-- What has been renewed so far. -/
def renewed : CloneM Renaming := do
  let s ← get
  pure s.renewed

end CloneM

mutual

/-- Copies an instruction. -/
def Instruction.clone : Instruction → CloneM Instruction
  | .declare v => do
    let fresh ← CloneM.declare v
    pure (.declare fresh)
  | .function name signatures => do
    let signatures ← Signature.cloneAll signatures
    pure (.function name signatures)
  | .assign a => do
    let r ← CloneM.renewed
    pure (.assign (a.clone r))
  | .ret value => do
    let r ← CloneM.renewed
    pure (.ret (Rvalue.cloneOption r value))
  | .branch condition thenBody elseBody => do
    let r ← CloneM.renewed
    let thenBody ← Instruction.cloneAll thenBody
    let elseBody ← Instruction.cloneAll elseBody
    pure (.branch (condition.clone r) thenBody elseBody)
  | .loop id controls body => do
    let fresh ← CloneM.newLoop id
    let r ← CloneM.renewed
    let body ← Instruction.cloneAll body
    pure (.loop fresh (controls.clone r) body)
  | .jump mode target => do
    let r ← CloneM.renewed
    pure (.jump mode (r.loop target))
  | .rvalue value => do
    let r ← CloneM.renewed
    pure (.rvalue (value.clone r))
termination_by structural i => i

/-- Copies the instructions from the first to the last. -/
def Instruction.cloneAll : List Instruction → CloneM (List Instruction)
  | [] => pure []
  | i :: rest => do
    let i ← Instruction.clone i
    let is ← Instruction.cloneAll rest
    pure (i :: is)
termination_by structural is => is

/-- Copies an overload of a function. -/
def Signature.clone : Signature → CloneM Signature
  | ⟨returnType, parameters, body, isDefined⟩ => do
    let parameters ← CloneM.declareAll parameters
    let body ← Instruction.cloneAll body
    pure ⟨returnType, parameters, body, isDefined⟩
termination_by structural s => s

/-- Copies the overloads from the first to the last. -/
def Signature.cloneAll : List Signature → CloneM (List Signature)
  | [] => pure []
  | s :: rest => do
    let s ← Signature.clone s
    let ss ← Signature.cloneAll rest
    pure (s :: ss)
termination_by structural ss => ss

end

end Shading
