/-
  Shading.Proofs.Execution — what instructions do to the values of variables.

  An `Evaluation` says what rvalues are worth and what assignments do; the rest follows from the
  structure of the instructions.
-/
import Shading.Proofs.Clone.Rename
import Shading.Proofs.Walk

namespace Shading

open Instruction

/-! ## §1. Evaluations -/

/-- The values of variables, by the variables' numbers. -/
abbrev Valuation (V : Type) := Nat → V

/-- The values after a variable has been given one. -/
def Valuation.set {V : Type} (σ : Valuation V) (v : Var) (x : V) : Valuation V :=
  fun n => if n = v.id then x else σ n

/-- Renamed by `f`, the variables have the values that they had; those that are shared keep theirs. -/
structure Valuation.Carries {V : Type} (uses : List Var) (shared : List Nat) (f : Var → Var)
    (σ τ : Valuation V) : Prop where
  named : ∀ v ∈ uses, τ (f v).id = σ v.id
  unnamed : ∀ n ∈ shared, τ n = σ n

/-- The variable `y` is among the renamed variables what `x` is among the variables. -/
structure Twins (uses : List Var) (shared : List Nat) (f : Var → Var) (x y : Nat) : Prop where
  named : ∀ v ∈ uses, (f v).id = y ↔ v.id = x
  unnamed : ∀ n ∈ shared, n = y ↔ n = x

/-- An evaluation of values and assignments.  It sees a variable through its value only: what it
    does stays the same if variables are renamed and have their values under the new names.  Calls
    may read and write variables that they do not name; these are `shared`. -/
structure Evaluation (V : Type) where
  value : Rvalue → Valuation V → V
  assign : Assignment → Valuation V → Valuation V
  /-- What computing a value does, if it stands as an instruction. -/
  perform : Rvalue → Valuation V → Valuation V
  initial : Variable → V
  isTrue : V → Bool
  /-- Does the counter compare so with the end? -/
  holds : Operator → V → V → Bool
  /-- The counter moved by the increment. -/
  advance : V → V → V
  shared : List Nat
  value_rename : ∀ (r : Rvalue) (f : Var → Var) (σ τ : Valuation V),
    σ.Carries r.uses shared f τ → value (r.rename f) τ = value r σ
  assign_rename : ∀ (a : Assignment) (f : Var → Var) (σ τ : Valuation V),
    σ.Carries a.uses shared f τ → ∀ x y, Twins a.uses shared f x y → τ y = σ x →
      assign (a.rename f) τ y = assign a σ x
  perform_rename : ∀ (r : Rvalue) (f : Var → Var) (σ τ : Valuation V),
    σ.Carries r.uses shared f τ → ∀ x y, Twins r.uses shared f x y → τ y = σ x →
      perform (r.rename f) τ y = perform r σ x

/-! ## §2. Loop controls -/

section

variable {V : Type} (ev : Evaluation V)

/-- The counter takes the value that it starts at. -/
def Controls.begin (c : Controls) (σ : Valuation V) : Valuation V :=
  match c.counter, c.start with
  | some v, some r => σ.set v (ev.value r σ)
  | _, _ => σ

/-- Has the counter reached the end? -/
def Controls.isOver (c : Controls) (σ : Valuation V) : Bool :=
  match c.counter, c.comparison, c.stop with
  | some v, some op, some r => ev.holds op (σ v.id) (ev.value r σ)
  | _, _, _ => false

/-- The counter moves on. -/
def Controls.advance (c : Controls) (σ : Valuation V) : Valuation V :=
  match c.counter, c.increment with
  | some v, some r => σ.set v (ev.advance (σ v.id) (ev.value r σ))
  | _, _ => σ

end

/-! ## §3. Runs -/

/-- How a list of instructions is left. -/
inductive Outcome (V : Type) where
  /-- At its end. -/
  | next
  | jump (mode : JumpMode) (target : LoopId)
  | ret (value : Option V)

/-- What is left of a jump out of a loop's body once the loop has dealt with it; nothing, if the loop
    goes on. -/
def Outcome.leaving {V : Type} (id : LoopId) : Outcome V → Option (Outcome V)
  | next => none
  | jump mode target =>
    if target = id then
      match mode with
      | .break => some next
      | .continue => none
    else some (jump mode target)
  | ret value => some (ret value)

/-- What an execution comes to: the values, the way in which the instructions were left, and the loops
    that were run, each with the number of its iterations. -/
structure Run (V : Type) where
  values : Valuation V
  outcome : Outcome V := .next
  counts : List (LoopId × Nat) := []

namespace Run

variable {V : Type}

/-- The run after others. -/
def after (counts : List (LoopId × Nat)) (r : Run V) : Run V := { r with counts := counts ++ r.counts }

/-- Goes on with what follows, unless it was left by a jump or a return. -/
def andThen (r : Run V) (rest : Valuation V → Option (Run V)) : Option (Run V) :=
  match r.outcome with
  | .next => (rest r.values).map (after r.counts)
  | _ => some r

end Run

/-! ## §4. Execution -/

section

variable {V : Type} (ev : Evaluation V)

/-- Runs a loop that has made `done` iterations and may make as many more as there is fuel. -/
def loopFrom (id : LoopId) (c : Controls) (body : Valuation V → Option (Run V)) :
    (fuel done : Nat) → Valuation V → Option (Run V)
  | 0, done, σ => if c.isOver ev σ then some { values := σ, counts := [(id, done)] } else none
  | fuel + 1, done, σ =>
    if c.isOver ev σ then some { values := σ, counts := [(id, done)] }
    else
      (body σ).bind fun r =>
        match r.outcome.leaving id with
        | some outcome => some { r with outcome, counts := r.counts ++ [(id, done + 1)] }
        | none => (loopFrom id c body fuel (done + 1) (c.advance ev r.values)).map (Run.after r.counts)

mutual

/-- Executes an instruction. -/
def Instruction.run (fuel : Nat) : Instruction → Valuation V → Option (Run V)
  | .declare v, σ => some { values := σ.set v (ev.initial v.value) }
  | .function _ _, σ => some { values := σ }
  | .assign a, σ => some { values := ev.assign a σ }
  | .ret value, σ => some { values := σ, outcome := .ret (value.map (ev.value · σ)) }
  | .branch condition thenBody elseBody, σ =>
    if ev.isTrue (ev.value condition σ) then runAll fuel thenBody σ
    else runAll fuel elseBody σ
  | .loop id c body, σ =>
    loopFrom ev id c (fun τ => runAll fuel body τ) fuel 0 (c.begin ev σ)
  | .jump mode target, σ => some { values := σ, outcome := .jump mode target }
  | .rvalue r, σ => some { values := ev.perform r σ }

/-- Executes the instructions from the first to the last. -/
def Instruction.runAll (fuel : Nat) : List Instruction → Valuation V → Option (Run V)
  | [], σ => some { values := σ }
  | i :: rest, σ =>
    (run fuel i σ).bind fun r => r.andThen fun τ => runAll fuel rest τ

end

end

/-! ## §5. Lists in sequence -/

section

variable {V : Type} {ev : Evaluation V} {fuel : Nat}

theorem Run.after_after (xs ys : List (LoopId × Nat)) (r : Run V) :
    (r.after ys).after xs = r.after (xs ++ ys) := by
  unfold Run.after
  rw [List.append_assoc]

/-- What follows a run is run only if nothing jumped. -/
theorem Run.andThen_eq_some {r out : Run V} {rest : Valuation V → Option (Run V)} :
    r.andThen rest = some out
      ↔ (r.outcome = .next ∧ ∃ last, rest r.values = some last ∧ out = last.after r.counts)
        ∨ (r.outcome ≠ .next ∧ out = r) := by
  obtain ⟨values, outcome, counts⟩ := r
  cases outcome with
  | next => simp [Run.andThen, Option.map_eq_some_iff, eq_comm (a := out)]
  | jump | ret => simp [Run.andThen, eq_comm]

theorem Run.andThen_after (counts : List (LoopId × Nat)) (r : Run V) (g : Valuation V → Option (Run V)) :
    (r.after counts).andThen g = (r.andThen g).map (Run.after counts) := by
  obtain ⟨values, outcome, counts'⟩ := r
  cases outcome with
  | next =>
    show (g values).map (Run.after (counts ++ counts'))
      = ((g values).map (Run.after counts')).map (Run.after counts)
    rw [Option.map_map]
    congr 1
    funext last
    exact (Run.after_after counts counts' last).symm
  | jump | ret => rfl

/-- Running on is associative. -/
theorem Run.andThen_bind (r : Run V) (f g : Valuation V → Option (Run V)) :
    (r.andThen f).bind (fun last => last.andThen g)
      = r.andThen fun τ => (f τ).bind fun last => last.andThen g := by
  obtain ⟨values, outcome, counts⟩ := r
  cases outcome with
  | next =>
    show ((f values).map (Run.after counts)).bind _ = ((f values).bind _).map (Run.after counts)
    cases f values with
    | none => rfl
    | some last => exact Run.andThen_after counts last g
  | jump | ret => rfl

/-- **A list of instructions is run in two parts**, the second from where the first one ended. -/
theorem Instruction.runAll_append (xs ys : List Instruction) (σ : Valuation V) :
    runAll ev fuel (xs ++ ys) σ
      = (runAll ev fuel xs σ).bind fun r =>
          r.andThen fun τ => runAll ev fuel ys τ := by
  induction xs generalizing σ with
  | nil =>
    show runAll ev fuel ys σ = (runAll ev fuel ys σ).map (Run.after [])
    exact Option.map_id'.symm
  | cons i rest ih =>
    show (run ev fuel i σ).bind _ = ((run ev fuel i σ).bind _).bind _
    rw [Option.bind_assoc]
    congr 1
    funext r
    rw [Run.andThen_bind]
    congr 1
    funext τ
    exact ih τ

/-- A loop that is left has counted at least the rounds before. -/
theorem loopFrom_counts {id : LoopId} {c : Controls} {body : Valuation V → Option (Run V)}
    {fuel done : Nat} {σ : Valuation V} {r : Run V} (h : loopFrom ev id c body fuel done σ = some r) :
    ∃ n, done ≤ n ∧ (id, n) ∈ r.counts := by
  induction fuel generalizing done σ r with
  | zero =>
    unfold loopFrom at h
    split at h
    · cases h
      exact ⟨done, Nat.le_refl _, List.mem_singleton.mpr rfl⟩
    · cases h
  | succ fuel ih =>
    unfold loopFrom at h
    split at h
    · cases h
      exact ⟨done, Nat.le_refl _, List.mem_singleton.mpr rfl⟩
    · obtain ⟨first, -, hrest⟩ := Option.bind_eq_some_iff.mp h
      split at hrest
      · cases hrest
        exact ⟨done + 1, Nat.le_succ _, List.mem_append_right _ (List.mem_singleton.mpr rfl)⟩
      · obtain ⟨last, hlast, rfl⟩ := Option.map_eq_some_iff.mp hrest
        -- the counts of the rest of the run come last
        obtain ⟨n, hn, hmem⟩ := ih hlast
        exact ⟨n, by omega, List.mem_append_right _ hmem⟩

end

end Shading
