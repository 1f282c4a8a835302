/-
  Shading.Proofs.Traversal — lists that are read off instructions.

  What instructions bring along, what happens to their variables, which loops they have: such lists
  arise from one traversal, which goes into every block in the order of the text.  A `Gathering` says
  what each instruction contributes.  `Instruction.induction` is the way to show something of all lists
  of instructions: by the blocks in them, and one overload of a function after the other.
-/
import Shading.Ir.Instruction

namespace Shading

open Instruction

/-! ## §1. Gathering -/

/-- What instructions contribute to a list.  What a jump contributes may depend on where it stands. -/
structure Gathering (γ α : Type) where
  /-- What an instruction without blocks contributes. -/
  leaf : γ → Instruction → List α
  /-- What the parameters of an overload contribute, before its body. -/
  parameters : List Var → List α := fun _ => []
  /-- What the condition of a branch contributes, before its blocks. -/
  condition : Rvalue → List α := fun _ => []
  /-- What a loop contributes if its body contributes the list. -/
  loop : LoopId → Controls → List Instruction → List α → List α := fun _ _ _ inside => inside
  /-- Where the body of a loop stands. -/
  enter : γ → LoopId → γ := fun place _ => place
  /-- Where the body of a function stands. -/
  body : γ → γ := fun place => place

section

variable {γ α : Type} (g : Gathering γ α)

mutual

/-- What an instruction contributes. -/
def Instruction.gather (place : γ) : Instruction → List α
  | .function _ signatures => Signature.gatherAll (g.body place) signatures
  | .branch condition thenBody elseBody =>
    g.condition condition ++ Instruction.gatherAll place thenBody
      ++ Instruction.gatherAll place elseBody
  | .loop id controls body =>
    g.loop id controls body (Instruction.gatherAll (g.enter place id) body)
  | i => g.leaf place i

/-- What the instructions contribute, from the first to the last. -/
def Instruction.gatherAll (place : γ) : List Instruction → List α
  | [] => []
  -- nothing is appended to what the last one contributes
  | [i] => Instruction.gather place i
  | i :: j :: rest => Instruction.gather place i ++ Instruction.gatherAll place (j :: rest)

/-- What an overload contributes. -/
def Signature.gather (place : γ) : Signature → List α
  | ⟨_, parameters, body, _⟩ => g.parameters parameters ++ Instruction.gatherAll place body

/-- What the overloads contribute. -/
def Signature.gatherAll (place : γ) : List Signature → List α
  | [] => []
  | s :: rest => Signature.gather place s ++ Signature.gatherAll place rest

end

variable (place : γ)

/-- A list is gathered in order, one instruction after the other. -/
theorem Instruction.gatherAll_cons (i : Instruction) (rest : List Instruction) :
    gatherAll g place (i :: rest)
      = gather g place i ++ gatherAll g place rest := by
  cases rest with
  | nil => exact (List.append_nil _).symm
  | cons j rest => rfl

/-- Gathering distributes over appended lists. -/
theorem Instruction.gatherAll_append (xs ys : List Instruction) :
    gatherAll g place (xs ++ ys)
      = gatherAll g place xs ++ gatherAll g place ys := by
  induction xs with
  | nil => rfl
  | cons i rest ih =>
    rw [List.cons_append, gatherAll_cons, gatherAll_cons, ih,
      List.append_assoc]

theorem Instruction.gatherAll_eq_flatMap (is : List Instruction) :
    gatherAll g place is = is.flatMap (gather g place) := by
  induction is with
  | nil => rfl
  | cons i rest ih => rw [gatherAll_cons, ih, List.flatMap_cons]

theorem Signature.gatherAll_eq_flatMap (ss : List Signature) :
    Signature.gatherAll g place ss = ss.flatMap (Signature.gather g place) := by
  induction ss with
  | nil => rfl
  | cons s rest ih => rw [Signature.gatherAll, ih, List.flatMap_cons]

end

/-! ## §2. Induction -/

/-- Does the instruction hold no other instructions? -/
def Instruction.isLeaf : Instruction → Bool
  | .function _ _ | .branch _ _ _ | .loop _ _ _ => false
  | _ => true

/-- An instruction without bodies gives what it holds itself. -/
theorem Instruction.gather_of_isLeaf {γ α : Type} (g : Gathering γ α) (place : γ) {i : Instruction}
    (h : i.isLeaf = true) : i.gather g place = g.leaf place i := by
  cases i with
  | function | branch | loop => cases h
  | _ => rfl

/-- **What holds of lists because it holds of the blocks in them holds of all lists.** -/
theorem Instruction.induction {P : List Instruction → Prop} (nil : P [])
    (append : ∀ xs ys, P xs → P ys → P (xs ++ ys))
    (leaf : ∀ i : Instruction, i.isLeaf = true → P [i])
    (branch : ∀ condition thenBody elseBody, P thenBody → P elseBody →
      P [.branch condition thenBody elseBody])
    (loop : ∀ id controls body, P body → P [.loop id controls body])
    (function : ∀ name, P [.function name []])
    (overload : ∀ name returnType parameters body isDefined signatures, P body →
      P [.function name signatures] →
      P [.function name (⟨returnType, parameters, body, isDefined⟩ :: signatures)])
    (is : List Instruction) : P is := by
  refine rec_2 (motive_1 := fun i => P [i]) (motive_2 := fun s => P s.body)
    (motive_3 := fun ss => ∀ name, P [.function name ss]) (motive_4 := P)
    (fun _ => leaf _ rfl) (fun name _ h => h name) (fun _ => leaf _ rfl) (fun _ => leaf _ rfl)
    branch loop (fun _ _ => leaf _ rfl) (fun _ => leaf _ rfl) (fun _ _ _ _ h => h) function ?_ nil
    (fun i rest => append [i] rest) is
  rintro ⟨returnType, parameters, body, isDefined⟩ rest hbody hrest name
  exact overload _ _ _ _ _ _ hbody (hrest name)

end Shading
