/-
  Shading.Proofs.Read.Calls — the calls in a module that was read.

  What is well formed in a symbol table has calls at any depth, in values and in bodies.  A walk
  meets all of them, and each means an overload that the function has in the table.
-/
import Shading.Proofs.Read.WellFormed

namespace Shading

open List Instruction

/-! ## §1. Calls that mean something -/

/-- The overload that a visit calls: the name of its function, and its place. -/
def Visit.called? : Visit → Option (String × Nat)
  | .call callee place _ _ => some (callee, place)
  | _ => none

/-- The overloads that a module calls, in the order of the walk. -/
def calledOverloads (ir : List Instruction) : List (String × Nat) :=
  (walkModule ir).filterMap (·.visit.called?)

/-- A call means one of the overloads that a function of that name has in the table. -/
def Visit.Means (table : SymbolTable) (visit : Visit) : Prop :=
  ∀ called ∈ visit.called?, ∃ name p, table.findFunction? name = some p ∧ p.name = called.1
    ∧ called.2 < p.overloads.length

/-- All calls in the steps mean something. -/
def CallsMean (table : SymbolTable) (steps : List Step) : Prop :=
  ∀ step ∈ steps, step.visit.Means table

section

variable {table : SymbolTable}

theorem means_of_none {visit : Visit} (h : visit.called? = none) : visit.Means table := by
  intro called hcalled
  rw [h] at hcalled
  cases hcalled

theorem callsMean_nil : CallsMean table [] := fun step hstep => by cases hstep

theorem callsMean_cons {step : Step} {rest : List Step} :
    CallsMean table (step :: rest) ↔ step.visit.Means table ∧ CallsMean table rest := by
  simp only [CallsMean, forall_mem_cons]

theorem callsMean_append {xs ys : List Step} :
    CallsMean table (xs ++ ys) ↔ CallsMean table xs ∧ CallsMean table ys := by
  simp only [CallsMean, forall_mem_append]

/-! ## §2. Values -/

/-- Calls in a well-formed value are of known overloads. -/
theorem Rvalue.WellFormed.callsMean {r : Rvalue} (h : r.WellFormed table) (depth : Nat) :
    CallsMean table (r.walk depth) := by
  refine Rvalue.of_mem_walk (S := Rvalue.WellFormed table) (fun _ h => h.parts)
    (fun r h depth => ?_) h depth
  match r with
  | .constant c => exact Constant.of_mem_walk (fun _ _ _ => means_of_none rfl) depth c
  | .dereference (.var v) =>
    exact forall_mem_cons.mpr ⟨means_of_none rfl, forall_mem_singleton.mpr (means_of_none rfl)⟩
  | .call _ _ _ _ =>
    -- the one visit that means an overload
    cases h with
    | call bound overload types parts =>
      refine forall_mem_singleton.mpr ?_
      rintro called ⟨⟩
      exact ⟨_, _, bound, rfl, (List.getElem?_eq_some_iff.mp overload).1⟩
  | .expression _ _ _ | .swizzle _ _ _ | .dereference (.index _ _ _) | .dereference (.field _ _ _)
  | .texture _ => exact forall_mem_singleton.mpr (means_of_none rfl)

theorem Rvalue.callsMean_walkOption {o : Option Rvalue} (h : ∀ r ∈ o, r.WellFormed table)
    (depth : Nat) : CallsMean table (Rvalue.walkOption depth o) :=
  Rvalue.of_mem_walkOption fun r hr => (h r hr).callsMean depth

/-! ## §3. Instructions -/

theorem Assignment.WellFormed.callsMean {a : Assignment} (h : a.WellFormed table) (depth : Nat) :
    CallsMean table (a.walk depth) := by
  unfold Assignment.walk
  simp only [callsMean_append]
  exact ⟨⟨Rvalue.callsMean_walkOption h.condition _, h.lhs.callsMean depth⟩, h.rhs.callsMean depth⟩

theorem Controls.WellFormed.callsMean {c : Controls} (h : c.WellFormed table) (depth : Nat) :
    CallsMean table (c.walk depth) := by
  have hcounter : CallsMean table (c.counter.map fun v => (⟨depth, .use v⟩ : Step)).toList := by
    cases c.counter with
    | none => exact callsMean_nil
    | some v => exact callsMean_cons.mpr ⟨means_of_none rfl, callsMean_nil⟩
  unfold Controls.walk
  simp only [callsMean_append]
  exact ⟨⟨⟨hcounter, Rvalue.callsMean_walkOption h.start _⟩, Rvalue.callsMean_walkOption h.stop _⟩,
    Rvalue.callsMean_walkOption h.increment _⟩

theorem Instruction.callsMean_walkAll {is : List Instruction}
    (h : ∀ i ∈ is, ∀ depth, CallsMean table (i.walk depth)) (depth : Nat) :
    CallsMean table (walkAll depth is) := by
  induction is with
  | nil => exact callsMean_nil
  | cons i rest ih =>
    rw [walkAll]
    exact callsMean_append.mpr
      ⟨h i mem_cons_self depth, ih fun j hj => h j (mem_cons_of_mem _ hj)⟩

/-- The bodies of a function may be walked one by one. -/
theorem Signature.callsMean_walkAll {name : String} {sigs : List Signature}
    (h : ∀ sig ∈ sigs, ∀ i ∈ sig.body, ∀ depth, CallsMean table (i.walk depth)) (depth : Nat) :
    CallsMean table (Signature.walkAll depth name sigs) := by
  induction sigs with
  | nil => exact callsMean_nil
  | cons sig rest ih =>
    obtain ⟨returnType, parameters, body, isDefined⟩ := sig
    have hparameters : CallsMean table
        (parameters.map fun v => (⟨depth + 1, .declare v⟩ : Step)) := by
      intro step hstep
      obtain ⟨v, -, rfl⟩ := mem_map.mp hstep
      exact means_of_none rfl
    have hbody := Instruction.callsMean_walkAll (h _ mem_cons_self) (depth + 2)
    rw [Signature.walkAll, Signature.walk]
    simp only [callsMean_append, callsMean_cons]
    exact ⟨⟨means_of_none rfl, hparameters, means_of_none rfl, hbody⟩,
      ih fun sig hsig => h sig (mem_cons_of_mem _ hsig)⟩

/-- **Every call in what is well formed means an overload that there is.** -/
theorem Instruction.WellFormed.callsMean {i : Instruction} (h : i.WellFormed table) (depth : Nat) :
    CallsMean table (i.walk depth) := by
  induction h generalizing depth with
  | declare | jump =>
    rw [walk]
    exact callsMean_cons.mpr ⟨means_of_none rfl, callsMean_nil⟩
  | function bodies ih =>
    rw [walk]
    exact callsMean_cons.mpr ⟨means_of_none rfl, Signature.callsMean_walkAll ih _⟩
  | assign parts =>
    rw [walk]
    exact callsMean_cons.mpr ⟨means_of_none rfl, parts.callsMean _⟩
  | ret part =>
    rw [walk]
    exact callsMean_cons.mpr ⟨means_of_none rfl, Rvalue.callsMean_walkOption part _⟩
  | branch part first second ih1 ih2 =>
    rw [walk]
    simp only [callsMean_cons, callsMean_append]
    exact ⟨means_of_none rfl,
      ⟨part.callsMean _, means_of_none rfl, callsMean_walkAll ih1 _⟩,
      means_of_none rfl, callsMean_walkAll ih2 _⟩
  | loop parts inner ih =>
    rw [walk]
    simp only [callsMean_cons, callsMean_append]
    exact ⟨means_of_none rfl, parts.callsMean _, means_of_none rfl,
      callsMean_walkAll ih _⟩
  | rvalue part =>
    rw [walk]
    exact part.callsMean depth

end

end Shading
