/-
  Shading.Proofs.Walk — what walks declare, use and enter.

  A walk is a list of steps.  The variables that the steps declare and use and the loops that they
  enter are read off it, and `Scoped` says that it respects scopes: every variable that it uses is
  known from outside or declared earlier in the walk.
-/
import Shading.Ir.Walk
import Shading.Proofs.Traversal

namespace Shading

open List Instruction

variable {step : Step} {r x : Rvalue} {P : Step → Prop}

/-! ## §1. Scoped walks -/

/-- The variables that the steps declare. -/
def declaredIn (steps : List Step) : List Var := steps.filterMap (·.visit.declared?)

/-- Every variable that a step uses is known, or a step before it has declared it. -/
def Scoped (known : List Var) : List Step → Prop
  | [] => True
  | step :: rest =>
    (∀ v ∈ step.visit.used?, v ∈ known) ∧ Scoped (known ++ step.visit.declared?.toList) rest

instance Scoped.decidable : ∀ (known : List Var) (steps : List Step), Decidable (Scoped known steps)
  | _, [] => isTrue trivial
  | known, step :: rest =>
    have := Scoped.decidable (known ++ step.visit.declared?.toList) rest
    inferInstanceAs (Decidable (_ ∧ _))

theorem declaredIn_cons (step : Step) (rest : List Step) :
    declaredIn (step :: rest) = step.visit.declared?.toList ++ declaredIn rest := by
  unfold declaredIn
  rw [filterMap_cons]
  cases step.visit.declared? <;> rfl

theorem declaredIn_append (xs ys : List Step) :
    declaredIn (xs ++ ys) = declaredIn xs ++ declaredIn ys :=
  filterMap_append

variable {known : List Var}

/-- Steps that are in scope stay so if more is known. -/
theorem Scoped.mono {known' : List Var} {steps : List Step} (h : Scoped known steps)
    (hknown : ∀ v ∈ known, v ∈ known') : Scoped known' steps := by
  induction steps generalizing known known' with
  | nil => trivial
  | cons step rest ih =>
    refine ⟨fun v hv => hknown v (h.1 v hv), ih h.2 ?_⟩
    intro v hv
    rcases mem_append.mp hv with hv | hv
    · exact mem_append_left _ (hknown v hv)
    · exact mem_append_right _ hv

variable {xs ys : List Step}

/-- The second part may use what the first one declares. -/
theorem scoped_append :
    Scoped known (xs ++ ys) ↔ Scoped known xs ∧ Scoped (known ++ declaredIn xs) ys := by
  induction xs generalizing known with
  | nil =>
    show Scoped known ys ↔ True ∧ Scoped (known ++ []) ys
    rw [true_and, List.append_nil]
  | cons step rest ih =>
    show _ ∧ Scoped _ (rest ++ ys) ↔ (_ ∧ Scoped _ rest) ∧ _
    rw [ih, declaredIn_cons, append_assoc, and_assoc]

/-- No step declares a variable, and all use known ones. -/
def Quiet (known : List Var) (steps : List Step) : Prop :=
  ∀ step ∈ steps, step.visit.declared? = none ∧ ∀ v ∈ step.visit.used?, v ∈ known

theorem quiet_cons {rest : List Step} :
    Quiet known (step :: rest)
      ↔ (step.visit.declared? = none ∧ ∀ v ∈ step.visit.used?, v ∈ known) ∧ Quiet known rest := by
  simp only [Quiet, forall_mem_cons]

theorem quiet_append : Quiet known (xs ++ ys) ↔ Quiet known xs ∧ Quiet known ys := by
  simp only [Quiet, forall_mem_append]

namespace Quiet

variable {known : List Var} {steps : List Step}

theorem declaredIn_eq (h : Quiet known steps) : declaredIn steps = [] :=
  filterMap_eq_nil_iff.mpr fun step hstep => (h step hstep).1

/-- Steps that declare nothing are in scope if they use known variables only. -/
theorem isScoped (h : Quiet known steps) : Scoped known steps := by
  induction steps with
  | nil => trivial
  | cons step rest ih =>
    obtain ⟨⟨hnone, huses⟩, hrest⟩ := quiet_cons.mp h
    refine ⟨huses, ?_⟩
    rw [hnone]
    exact (ih hrest).mono fun v hv => mem_append_left _ hv

theorem mono {known' : List Var} (h : Quiet known steps) (hknown : ∀ v ∈ known, v ∈ known') :
    Quiet known' steps :=
  fun step hstep => ⟨(h step hstep).1, fun v hv => hknown v ((h step hstep).2 v hv)⟩

end Quiet

/-! ## §2. Uses and loops -/

/-- The variables that the steps use. -/
def usedIn (steps : List Step) : List Var := steps.filterMap (·.visit.used?)

/-- The loops that the steps enter. -/
def loopsIn (steps : List Step) : List LoopId := steps.filterMap (·.visit.loop?)

theorem usedIn_cons (step : Step) (rest : List Step) :
    usedIn (step :: rest) = step.visit.used?.toList ++ usedIn rest := by
  unfold usedIn
  rw [filterMap_cons]
  cases step.visit.used? <;> rfl

theorem usedIn_append (xs ys : List Step) : usedIn (xs ++ ys) = usedIn xs ++ usedIn ys :=
  filterMap_append

theorem loopsIn_cons (step : Step) (rest : List Step) :
    loopsIn (step :: rest) = step.visit.loop?.toList ++ loopsIn rest := by
  unfold loopsIn
  rw [filterMap_cons]
  cases step.visit.loop? <;> rfl

theorem loopsIn_append (xs ys : List Step) : loopsIn (xs ++ ys) = loopsIn xs ++ loopsIn ys :=
  filterMap_append

/-- Everything used was known before or is declared among the steps. -/
theorem Scoped.mem_of_mem_usedIn {steps : List Step} (h : Scoped known steps) {v : Var}
    (hv : v ∈ usedIn steps) : v ∈ known ++ declaredIn steps := by
  induction steps generalizing known with
  | nil => cases hv
  | cons step rest ih =>
    rw [usedIn_cons, mem_append, Option.mem_toList] at hv
    rw [declaredIn_cons, ← append_assoc]
    rcases hv with hv | hv
    · exact mem_append_left _ (mem_append_left _ (h.1 v hv))
    · exact ih h.2 hv

/-! ## §3. Walks in sequence -/

theorem walkAll_singleton (depth : Nat) (i : Instruction) :
    walkAll depth [i] = i.walk depth := by
  simp [walkAll]

theorem walkAll_append (depth : Nat) (is js : List Instruction) :
    walkAll depth (is ++ js)
      = walkAll depth is ++ walkAll depth js := by
  induction is with
  | nil => rfl
  | cons i is ih => rw [cons_append, walkAll, walkAll, ih,
      append_assoc]

/-! ## §4. Values -/

/-- The values that choose the level of detail. -/
def Lookup.operands : Lookup → List Rvalue
  | plain => []
  | bias amount => [amount]
  | level lod => [lod]
  | gradient dx dy => [dx, dy]
  | fetch lod => [lod]

/-- The values that a value is computed from. -/
def Rvalue.parts : Rvalue → List Rvalue
  | .expression _ _ operands => operands
  | .swizzle value _ _ => [value]
  | .dereference (.var _) => []
  | .dereference (.index base index _) => [base, index]
  | .dereference (.field base _ _) => [base]
  | .constant _ => []
  | .call _ _ _ args => args
  | .texture t => .dereference t.sampler :: t.coordinate :: t.lookup.operands
      ++ t.projector.toList ++ t.comparator.toList

/-- The parts in the order of the walk. -/
def Rvalue.inOrder : Rvalue → List Rvalue
  | .texture t => .dereference t.sampler :: t.coordinate :: t.projector.toList
      ++ t.comparator.toList ++ t.lookup.operands
  | r => r.parts

/-- What a walk meets at the value before it goes on to the parts. -/
def Rvalue.ownSteps (depth : Nat) : Rvalue → List Step
  | .expression op ty operands => [⟨depth, .expression op ty operands.length⟩]
  | .swizzle _ mask ty => [⟨depth, .swizzle mask ty⟩]
  | .dereference (.var v) => [⟨depth, .var v.ty⟩, ⟨depth + 1, .use v⟩]
  | .dereference (.index base index ty) =>
    [⟨depth, .index ty (Dereference.root? (.index base index ty))⟩]
  | .dereference (.field base name ty) =>
    [⟨depth, .field name ty (Dereference.root? (.field base name ty))⟩]
  | .constant c => c.walk depth
  | .call callee signature ty args => [⟨depth, .call callee signature ty args.length⟩]
  | .texture t => [⟨depth, .texture t.lookup.name t.ty t.offsets t.projector.isSome t.comparator.isSome⟩]

/-- The order of printing holds the same parts. -/
theorem Rvalue.mem_inOrder : x ∈ r.inOrder ↔ x ∈ r.parts := by
  cases r with
  | texture t => simp only [Rvalue.inOrder, Rvalue.parts, mem_append, mem_cons, or_assoc, or_left_comm,
      or_comm]
  | _ => exact Iff.rfl

theorem Rvalue.walkAll_eq (depth : Nat) (rs : List Rvalue) :
    Rvalue.walkAll depth rs = rs.flatMap (·.walk depth) := by
  induction rs with
  | nil => rfl
  | cons r rest ih => rw [Rvalue.walkAll, ih, flatMap_cons]

theorem Rvalue.walkOption_eq (depth : Nat) (o : Option Rvalue) :
    Rvalue.walkOption depth o = o.toList.flatMap (·.walk depth) := by
  cases o with
  | none => rfl
  | some r => simp [Rvalue.walkOption]

theorem Lookup.walk_eq (depth : Nat) (lookup : Lookup) :
    lookup.walk depth = lookup.operands.flatMap (·.walk depth) := by
  cases lookup <;> simp [Lookup.walk, Lookup.operands]

/-- **A walk meets a value and then its parts.** -/
theorem Rvalue.walk_eq (depth : Nat) (r : Rvalue) :
    r.walk depth = r.ownSteps depth ++ r.inOrder.flatMap (·.walk (depth + 1)) := by
  match r with
  | .expression _ _ operands => exact congrArg (_ :: ·) (Rvalue.walkAll_eq _ operands)
  | .call _ _ _ args => exact congrArg (_ :: ·) (Rvalue.walkAll_eq _ args)
  | .swizzle _ _ _ | .dereference (.var _) | .dereference (.index _ _ _) | .dereference (.field _ _ _)
  | .constant _ => simp [Rvalue.walk, Dereference.walk, Rvalue.ownSteps, Rvalue.inOrder, Rvalue.parts]
  | .texture ⟨lookup, ty, sampler, coordinate, offsets, projector, comparator⟩ =>
    simp [Rvalue.walk, Texture.walk, Rvalue.ownSteps, Rvalue.inOrder, Rvalue.walkOption_eq,
      Lookup.walk_eq]

/-- What is met in a part is met in the whole. -/
theorem Rvalue.mem_walk_of_mem_parts {depth : Nat} (hx : x ∈ r.parts)
    (hstep : step ∈ x.walk (depth + 1)) : step ∈ r.walk depth := by
  rw [Rvalue.walk_eq]
  exact mem_append_right _ (mem_flatMap.mpr ⟨x, Rvalue.mem_inOrder.mpr hx, hstep⟩)

/-- Parts are smaller, which justifies induction over them. -/
theorem Rvalue.sizeOf_lt_of_mem_parts (h : x ∈ r.parts) : sizeOf x < sizeOf r := by
  match r, h with
  | .expression _ _ _, h | .call _ _ _ _, h =>
    have hx := sizeOf_lt_of_mem h
    simp only [Rvalue.parts] at hx
    simp
    omega
  | .swizzle _ _ _, h | .dereference (.index _ _ _), h | .dereference (.field _ _ _), h =>
    simp [Rvalue.parts] at h ⊢
    grind
  | .texture ⟨lookup, ty, sampler, coordinate, offsets, projector, comparator⟩, h =>
    cases lookup <;> cases projector <;> cases comparator <;>
      simp [Rvalue.parts, Lookup.operands] at h ⊢ <;> grind

/-- What holds of a value if it holds of its parts holds of all values. -/
theorem Rvalue.induction {P : Rvalue → Prop} (h : ∀ r, (∀ x ∈ r.parts, P x) → P r) (r : Rvalue) : P r :=
  h r fun x _ => Rvalue.induction h x
termination_by sizeOf r
decreasing_by exact Rvalue.sizeOf_lt_of_mem_parts ‹_›

mutual

/-- A walk over a constant meets constants only. -/
theorem Constant.of_mem_walk
    (h : ∀ depth ty components, P ⟨depth, .constant ty components⟩) (depth : Nat) :
    ∀ c : Constant, ∀ step ∈ c.walk depth, P step
  | ⟨ty, .array elements⟩ => by
    rw [Constant.walk]
    exact forall_mem_cons.mpr ⟨h _ _ _, Constant.of_mem_walkAll h (depth + 1) elements⟩
  | ⟨_, .float _⟩ | ⟨_, .int _⟩ | ⟨_, .uint _⟩ | ⟨_, .bool _⟩ => forall_mem_singleton.mpr (h _ _ _)

theorem Constant.of_mem_walkAll
    (h : ∀ depth ty components, P ⟨depth, .constant ty components⟩) (depth : Nat) :
    ∀ cs : List Constant, ∀ step ∈ Constant.walkAll depth cs, P step
  | [] => forall_mem_nil _
  | c :: rest => by
    rw [Constant.walkAll]
    exact forall_mem_append.mpr ⟨Constant.of_mem_walk h depth c, Constant.of_mem_walkAll h depth rest⟩

end

/-- **What holds where a walk meets a value holds in the whole walk**, if the parts are such values
    too. -/
theorem Rvalue.of_mem_walk {S : Rvalue → Prop}
    (hparts : ∀ r, S r → ∀ x ∈ r.parts, S x)
    (hown : ∀ r, S r → ∀ depth, ∀ step ∈ r.ownSteps depth, P step) (h : S r)
    (depth : Nat) : ∀ step ∈ r.walk depth, P step := by
  induction r using Rvalue.induction generalizing depth with
  | h r ih =>
    rw [Rvalue.walk_eq]
    refine forall_mem_append.mpr ⟨hown r h depth, fun step hstep => ?_⟩
    obtain ⟨x, hx, hstep⟩ := mem_flatMap.mp hstep
    rw [Rvalue.mem_inOrder] at hx
    exact ih x hx (hparts r h x hx) _ step hstep

theorem Rvalue.of_mem_walkOption {o : Option Rvalue} {depth : Nat}
    (h : ∀ r ∈ o, ∀ step ∈ r.walk depth, P step) : ∀ step ∈ Rvalue.walkOption depth o, P step := by
  cases o with
  | none => exact forall_mem_nil _
  | some r => exact h r rfl

/-- Steps through values: they declare nothing and enter no loop. -/
def OfValues (steps : List Step) : Prop :=
  ∀ step ∈ steps, step.visit.declared? = none ∧ step.visit.loop? = none

theorem ofValues_nil : OfValues [] := fun step hstep => by cases hstep

theorem ofValues_cons {rest : List Step} :
    OfValues (step :: rest)
      ↔ (step.visit.declared? = none ∧ step.visit.loop? = none) ∧ OfValues rest := by
  simp only [OfValues, forall_mem_cons]

theorem ofValues_append : OfValues (xs ++ ys) ↔ OfValues xs ∧ OfValues ys := by
  simp only [OfValues, forall_mem_append]

namespace OfValues

variable {steps : List Step}

theorem declaredIn_eq (h : OfValues steps) : declaredIn steps = [] :=
  filterMap_eq_nil_iff.mpr fun step hstep => (h step hstep).1

theorem loopsIn_eq (h : OfValues steps) : loopsIn steps = [] :=
  filterMap_eq_nil_iff.mpr fun step hstep => (h step hstep).2

/-- Values declare nothing, so what they use was known before. -/
theorem mem_known (h : OfValues steps) (hscoped : Scoped known steps) :
    ∀ v ∈ usedIn steps, v ∈ known := by
  intro v hv
  have hmem := hscoped.mem_of_mem_usedIn hv
  rwa [h.declaredIn_eq, List.append_nil] at hmem

end OfValues

/-- **Values declare nothing and have no loops.** -/
theorem Rvalue.ofValues_walk (depth : Nat) (r : Rvalue) : OfValues (r.walk depth) := by
  refine Rvalue.of_mem_walk (S := fun _ => True) (fun _ _ _ _ => trivial) (fun r _ depth => ?_)
    trivial depth
  match r with
  | .constant c => exact Constant.of_mem_walk (fun _ _ _ => ⟨rfl, rfl⟩) depth c
  | .dereference (.var v) => exact forall_mem_cons.mpr ⟨⟨rfl, rfl⟩, forall_mem_singleton.mpr ⟨rfl, rfl⟩⟩
  | .expression _ _ _ | .swizzle _ _ _ | .dereference (.index _ _ _) | .dereference (.field _ _ _)
  | .call _ _ _ _ | .texture _ => exact forall_mem_singleton.mpr ⟨rfl, rfl⟩

theorem Rvalue.ofValues_walkOption (depth : Nat) (r : Option Rvalue) :
    OfValues (Rvalue.walkOption depth r) :=
  Rvalue.of_mem_walkOption fun r _ => r.ofValues_walk depth

theorem Dereference.ofValues_walk (depth : Nat) (d : Dereference) : OfValues (d.walk depth) :=
  Rvalue.ofValues_walk depth (.dereference d)

/-- An assignment consists of values. -/
theorem Assignment.ofValues_walk (depth : Nat) (a : Assignment) : OfValues (a.walk depth) := by
  unfold Assignment.walk
  exact ofValues_append.mpr ⟨ofValues_append.mpr
    ⟨Rvalue.ofValues_walkOption depth a.condition, Dereference.ofValues_walk depth a.lhs⟩,
    Rvalue.ofValues_walk depth a.rhs⟩

/-- The controls of a loop consist of values. -/
theorem Controls.ofValues_walk (depth : Nat) (c : Controls) : OfValues (c.walk depth) := by
  have hcounter : OfValues (c.counter.map fun v => (⟨depth, .use v⟩ : Step)).toList := by
    cases c.counter with
    | none => exact ofValues_nil
    | some v => exact ofValues_cons.mpr ⟨⟨rfl, rfl⟩, ofValues_nil⟩
  unfold Controls.walk
  simp only [ofValues_append]
  exact ⟨⟨⟨hcounter, Rvalue.ofValues_walkOption depth c.start⟩,
    Rvalue.ofValues_walkOption depth c.stop⟩, Rvalue.ofValues_walkOption depth c.increment⟩

/-! ## §5. Uses -/

/-- The variables that a value uses. -/
def Rvalue.uses (r : Rvalue) : List Var := usedIn (r.walk 0)

/-- The variables that an assignment uses, also the one that it writes. -/
def Assignment.uses (a : Assignment) : List Var := usedIn (a.walk 0)

/-- The variables that a loop's controls use. -/
def Controls.uses (c : Controls) : List Var := usedIn (c.walk 0)

section

variable (depth depth' : Nat)

theorem Constant.usedIn_walk (c : Constant) : usedIn (c.walk depth) = [] :=
  filterMap_eq_nil_iff.mpr (Constant.of_mem_walk (fun _ _ _ => rfl) depth c)

/-- **A walk uses the same at any depth.** -/
theorem Rvalue.usedIn_walk (r : Rvalue) : usedIn (r.walk depth) = usedIn (r.walk depth') := by
  induction r using Rvalue.induction generalizing depth depth' with
  | h r ih =>
    have hown : usedIn (r.ownSteps depth) = usedIn (r.ownSteps depth') := by
      match r with
      | .constant c => exact (c.usedIn_walk depth).trans (c.usedIn_walk depth').symm
      | .expression _ _ _ | .swizzle _ _ _ | .dereference (.var _) | .dereference (.index _ _ _)
      | .dereference (.field _ _ _) | .call _ _ _ _ | .texture _ => rfl
    rw [Rvalue.walk_eq, Rvalue.walk_eq, usedIn_append, usedIn_append, hown]
    refine congrArg (_ ++ ·) ?_
    unfold usedIn
    rw [filterMap_flatMap, filterMap_flatMap, flatMap_def, flatMap_def]
    exact congrArg flatten (map_congr_left fun x hx => ih x (Rvalue.mem_inOrder.mp hx) _ _)

theorem Rvalue.usedIn_walkOption (r : Option Rvalue) :
    usedIn (Rvalue.walkOption depth r) = usedIn (Rvalue.walkOption depth' r) := by
  cases r with
  | none => rfl
  | some r => exact r.usedIn_walk depth depth'

/-- The variables used by an assignment do not depend on the depth of the walk. -/
theorem Assignment.usedIn_walk (a : Assignment) : usedIn (a.walk depth) = a.uses := by
  have hlhs : usedIn (a.lhs.walk depth) = usedIn (a.lhs.walk 0) :=
    Rvalue.usedIn_walk depth 0 (.dereference a.lhs)
  simp only [Assignment.uses, Assignment.walk, usedIn_append, Rvalue.usedIn_walkOption depth 0,
    hlhs, Rvalue.usedIn_walk depth 0]

theorem Controls.usedIn_walk (c : Controls) : usedIn (c.walk depth) = c.uses := by
  have hcounter : usedIn (c.counter.map fun v => (⟨depth, .use v⟩ : Step)).toList
      = usedIn (c.counter.map fun v => (⟨0, .use v⟩ : Step)).toList := by
    cases c.counter <;> rfl
  simp only [Controls.uses, Controls.walk, usedIn_append, hcounter, Rvalue.usedIn_walkOption depth 0]

end

/-! ## §6. Loops -/

/-- The loops, each before those inside of it. -/
def Gathering.loops : Gathering Unit LoopId where
  leaf _ _ := []
  loop id _ _ inside := id :: inside

/-- The loops of the instructions, each before those inside of it. -/
def Instruction.loopsAll (is : List Instruction) : List LoopId := gatherAll .loops () is

theorem Instruction.loopsAll_append (xs ys : List Instruction) :
    loopsAll (xs ++ ys) = loopsAll xs ++ loopsAll ys :=
  gatherAll_append .loops () xs ys

theorem Instruction.loopsAll_of_isLeaf {i : Instruction} (h : i.isLeaf = true) :
    loopsAll [i] = [] :=
  gather_of_isLeaf .loops () h

/-- **A walk enters the loops of a list.** -/
theorem Instruction.loopsIn_walkAll (depth : Nat) (is : List Instruction) :
    loopsIn (walkAll depth is) = loopsAll is := by
  induction is using induction generalizing depth with
  | nil => rfl
  | append xs ys ih1 ih2 => rw [walkAll_append, loopsIn_append, ih1, ih2, loopsAll_append]
  | leaf i h =>
    rw [walkAll_singleton]
    cases i with
    | function | branch | loop => cases h
    | declare | jump => rfl
    | assign a => exact (a.ofValues_walk (depth + 1)).loopsIn_eq
    | ret value => exact (Rvalue.ofValues_walkOption (depth + 1) value).loopsIn_eq
    | rvalue r => exact (r.ofValues_walk depth).loopsIn_eq
  | branch condition _ _ ih1 ih2 =>
    simp only [walkAll_singleton, walk, loopsIn_cons, loopsIn_append,
      (condition.ofValues_walk (depth + 1)).loopsIn_eq, ih1, ih2]
    rfl
  | loop _ controls _ ih =>
    simp only [walkAll_singleton, walk, loopsIn_cons, loopsIn_append,
      (controls.ofValues_walk (depth + 1)).loopsIn_eq, ih]
    rfl
  | function _ => rfl
  | overload _ _ parameters body _ _ ih1 ih2 =>
    have hparameters (depth : Nat) :
        loopsIn (parameters.map fun v => Step.mk depth (.declare v)) = [] :=
      filterMap_eq_nil_iff.mpr (forall_mem_map.mpr fun _ _ => rfl)
    have hothers := ih2 depth
    simp only [walkAll_singleton, walk, loopsIn_cons] at hothers
    simp only [walkAll_singleton, walk, Signature.walkAll, Signature.walk, loopsIn_cons,
      loopsIn_append, hparameters, ih1]
    exact congrArg (loopsAll body ++ ·) hothers

/-- The loops met by a walk are those of the instructions. -/
theorem loopIds_eq (ir : List Instruction) : loopIds ir = loopsAll ir :=
  loopsIn_walkAll 0 ir

end Shading
