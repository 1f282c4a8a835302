/-
  Shading.Proofs.Read.Positions — where instructions stand.

  A node of a document is an instruction; so are the nodes of the blocks of a branch and of a loop, and
  those of the bodies of a function's signatures.  `Node.positions` lists them all, each with whether a
  loop stands around it in the same body: a function inside of a loop begins bodies of its own.
-/
import Shading.Proofs.Read.Document

namespace Shading

mutual

/-- The instructions inside of an instruction. -/
def Node.inside (inLoop : Bool) : Node → List (Node × Bool)
  | .list (.symbol "function" :: .symbol _ :: signatures) => Node.insideSignatures signatures
  | .list [.symbol "if", _, thenBody, elseBody] =>
    Node.insideBlock inLoop thenBody ++ Node.insideBlock inLoop elseBody
  | .list [.symbol "loop", _, _, _, _, body] => Node.insideBlock true body
  | _ => []

/-- The instructions of a block and inside of them. -/
def Node.insideBlock (inLoop : Bool) : Node → List (Node × Bool)
  | .list nodes => Node.positions inLoop nodes
  | _ => []

/-- These instructions and those inside of them. -/
def Node.positions (inLoop : Bool) : List Node → List (Node × Bool)
  | [] => []
  | node :: rest => (node, inLoop) :: (Node.inside inLoop node ++ Node.positions inLoop rest)

/-- The instructions in the bodies of signatures. -/
def Node.insideSignatures : List Node → List (Node × Bool)
  | [] => []
  | node :: rest => Node.insideSignature node ++ Node.insideSignatures rest

/-- The instructions in the body of a signature. -/
def Node.insideSignature : Node → List (Node × Bool)
  | .list [.symbol "signature", _, _, body] => Node.insideBlock false body
  | _ => []

end

/-- The names of the functions at these places. -/
def namesAt (places : List (Node × Bool)) : List String := places.filterMap (·.1.functionName?)

/-- The names of the functions of a document, those inside of other instructions included. -/
def Node.namedFunctions (nodes : List Node) : List String := namesAt (Node.positions false nodes)

section

variable {P : String → Prop} {inLoop : Bool}

theorem forall_namesAt_append {ps qs : List (Node × Bool)} :
    (∀ name ∈ namesAt (ps ++ qs), P name)
      ↔ (∀ name ∈ namesAt ps, P name) ∧ ∀ name ∈ namesAt qs, P name := by
  rw [namesAt, List.filterMap_append, List.forall_mem_append]
  rfl

theorem forall_namesAt_cons {node : Node} {ps : List (Node × Bool)} :
    (∀ name ∈ namesAt ((node, inLoop) :: ps), P name)
      ↔ (∀ name ∈ node.functionName?, P name) ∧ ∀ name ∈ namesAt ps, P name := by
  unfold namesAt
  cases h : node.functionName? with
  | none | some => simp [h]

end

end Shading
