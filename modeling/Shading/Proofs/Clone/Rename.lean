/-
  Shading.Proofs.Clone.Rename — renamed values.

  The parts of a renamed value are the renamed parts (`Rvalue.parts_rename`), so what is said here of
  values follows from what is said of their nodes.

  Main results:
    * `Rvalue.rename_rename_congr` — only what two renamings do to the variables that a value uses
      matters,
    * `Rvalue.rename_id` — renaming nothing,
    * `Rvalue.walk_rename` — a walk through a renamed value meets what a walk through the value meets,
      with each variable replaced,
    * `Rvalue.usedIn_rename` — a renamed value uses the renamed variables, whatever their types are.
-/
import Shading.Ir.Clone
import Shading.Proofs.Walk

namespace Shading

open List

/-! ## §1. Renaming -/

mutual

/-- The value with its variables replaced. -/
def Rvalue.rename (f : Var → Var) : Rvalue → Rvalue
  | .expression op ty operands => .expression op ty (Rvalue.renameAll f operands)
  | .swizzle value mask ty => .swizzle (Rvalue.rename f value) mask ty
  | .dereference d => .dereference (Dereference.rename f d)
  | .constant c => .constant c
  | .call callee signature ty args => .call callee signature ty (Rvalue.renameAll f args)
  | .texture t => .texture (Texture.rename f t)
termination_by structural r => r

/-- The values with their variables replaced. -/
def Rvalue.renameAll (f : Var → Var) : List Rvalue → List Rvalue
  | [] => []
  | r :: rest => Rvalue.rename f r :: Rvalue.renameAll f rest
termination_by structural rs => rs

/-- The value, if there is one, with its variables replaced. -/
def Rvalue.renameOption (f : Var → Var) : Option Rvalue → Option Rvalue
  | none => none
  | some r => some (Rvalue.rename f r)
termination_by structural r => r

/-- The dereference with its variables replaced. -/
def Dereference.rename (f : Var → Var) : Dereference → Dereference
  | .var v => .var (f v)
  | .index base index ty => .index (Rvalue.rename f base) (Rvalue.rename f index) ty
  | .field base name ty => .field (Rvalue.rename f base) name ty
termination_by structural d => d

/-- The lookup with its variables replaced. -/
def Texture.rename (f : Var → Var) : Texture → Texture
  | ⟨lookup, ty, sampler, coordinate, offsets, projector, comparator⟩ =>
    ⟨Lookup.rename f lookup, ty, Dereference.rename f sampler, Rvalue.rename f coordinate, offsets,
      Rvalue.renameOption f projector, Rvalue.renameOption f comparator⟩
termination_by structural t => t

/-- What chooses the level of detail, with its variables replaced. -/
def Lookup.rename (f : Var → Var) : Lookup → Lookup
  | .plain => .plain
  | .bias amount => .bias (Rvalue.rename f amount)
  | .level lod => .level (Rvalue.rename f lod)
  | .gradient dx dy => .gradient (Rvalue.rename f dx) (Rvalue.rename f dy)
  | .fetch lod => .fetch (Rvalue.rename f lod)
termination_by structural lookup => lookup

end

/-- The assignment with its variables replaced. -/
def Assignment.rename (f : Var → Var) (a : Assignment) : Assignment :=
  { a with condition := Rvalue.renameOption f a.condition, lhs := a.lhs.rename f, rhs := a.rhs.rename f }

/-- The controls with their variables replaced. -/
def Controls.rename (f : Var → Var) (c : Controls) : Controls :=
  { c with
    counter := c.counter.map f, start := Rvalue.renameOption f c.start,
    stop := Rvalue.renameOption f c.stop, increment := Rvalue.renameOption f c.increment }

/-! ## §2. Copies -/

/-- **Copying a value replaces its variables** and keeps everything else. -/
theorem Rvalue.clone_eq (r : Renaming) (value : Rvalue) : value.clone r = value.rename r.var := by
  -- both go through the value in the same way
  delta Rvalue.clone Rvalue.rename
  rfl

theorem Rvalue.cloneOption_eq (r : Renaming) (value : Option Rvalue) :
    Rvalue.cloneOption r value = Rvalue.renameOption r.var value := by
  cases value with
  | none => rfl
  | some value => exact congrArg some (value.clone_eq r)

theorem Dereference.clone_eq (r : Renaming) (d : Dereference) : d.clone r = d.rename r.var :=
  Rvalue.dereference.inj (Rvalue.clone_eq r (.dereference d))

theorem Assignment.clone_eq (r : Renaming) (a : Assignment) : a.clone r = a.rename r.var := by
  rw [Assignment.clone, Rvalue.cloneOption_eq, Dereference.clone_eq, Rvalue.clone_eq,
    Assignment.rename]

/-- **The copy of a loop compares as the loop does**, and its other controls are renamed. -/
theorem Controls.clone_eq (r : Renaming) (c : Controls) : c.clone r = c.rename r.var := by
  rw [Controls.clone, Rvalue.cloneOption_eq, Rvalue.cloneOption_eq, Rvalue.cloneOption_eq,
    Controls.rename]

/-! ## §3. Renamed parts -/

section

variable (f : Var → Var)

theorem Rvalue.renameAll_eq (rs : List Rvalue) : Rvalue.renameAll f rs = rs.map (·.rename f) := by
  induction rs with
  | nil => rfl
  | cons r rest ih => rw [Rvalue.renameAll, ih, map_cons]

theorem Rvalue.renameOption_eq (o : Option Rvalue) : Rvalue.renameOption f o = o.map (·.rename f) := by
  cases o <;> rfl

theorem Rvalue.length_renameAll (rs : List Rvalue) : (Rvalue.renameAll f rs).length = rs.length := by
  rw [Rvalue.renameAll_eq, length_map]

theorem Rvalue.isSome_renameOption (r : Option Rvalue) :
    (Rvalue.renameOption f r).isSome = r.isSome := by
  cases r <;> rfl

theorem Lookup.name_rename (lookup : Lookup) : (lookup.rename f).name = lookup.name := by
  cases lookup <;> rfl

/-- Renaming does not change in what order the parts are printed. -/
theorem Rvalue.inOrder_rename (r : Rvalue) : (r.rename f).inOrder = r.inOrder.map (·.rename f) := by
  match r with
  | .expression _ _ rs | .call _ _ _ rs => exact Rvalue.renameAll_eq f rs
  | .swizzle _ _ _ | .dereference (.var _) | .dereference (.index _ _ _) | .dereference (.field _ _ _)
  | .constant _ => rfl
  | .texture ⟨lookup, ty, sampler, coordinate, offsets, projector, comparator⟩ =>
    cases lookup <;> cases projector <;> cases comparator <;> rfl

mutual

/-- The variable at the root is renamed like every other. -/
theorem Dereference.root?_rename : ∀ d : Dereference, (d.rename f).root? = d.root?.map f
  | .var v => rfl
  | .index base index ty => by
    simp only [Dereference.rename, Dereference.root?, Rvalue.root?_rename base]
  | .field base name ty => by
    simp only [Dereference.rename, Dereference.root?, Rvalue.root?_rename base]

theorem Rvalue.root?_rename : ∀ r : Rvalue, (r.rename f).root? = r.root?.map f
  | .expression _ _ _ => rfl
  | .swizzle _ _ _ => rfl
  | .dereference d => by simp only [Rvalue.rename, Rvalue.root?, Dereference.root?_rename d]
  | .constant _ => rfl
  | .call _ _ _ _ => rfl
  | .texture _ => rfl

end

end

theorem Dereference.ty_rename {f : Var → Var} (hty : ∀ v, (f v).ty = v.ty) (d : Dereference) :
    (d.rename f).ty = d.ty := by
  cases d with
  | var v => exact hty v
  | index | field => rfl

/-- A renaming that keeps the types of variables keeps those of values. -/
theorem Rvalue.ty_rename {f : Var → Var} (hty : ∀ v, (f v).ty = v.ty) (r : Rvalue) :
    (r.rename f).ty = r.ty := by
  cases r with
  | dereference d => exact d.ty_rename hty
  | texture t =>
    cases t
    rfl
  | expression | swizzle | constant | call => rfl

/-! ## §4. Renaming twice, and renaming nothing -/

section

variable {f g h : Var → Var} {depth : Nat}

/-- A value uses what its parts use. -/
theorem Rvalue.mem_usedIn_of_mem_parts {r x : Rvalue} (hx : x ∈ r.parts) {v : Var}
    (hv : v ∈ usedIn (x.walk (depth + 1))) : v ∈ usedIn (r.walk depth) := by
  rw [Rvalue.walk_eq, usedIn_append]
  obtain ⟨step, hstep, hused⟩ := mem_filterMap.mp hv
  exact mem_append_right _ (mem_filterMap.mpr
    ⟨step, mem_flatMap.mpr ⟨x, Rvalue.mem_inOrder.mpr hx, hstep⟩, hused⟩)

/-- **Only what is done to the variables that a value uses matters.** -/
theorem Rvalue.rename_rename_congr (r : Rvalue) (hv : ∀ v ∈ usedIn (r.walk depth), g (f v) = h v) :
    (r.rename f).rename g = r.rename h := by
  induction r using Rvalue.induction generalizing depth with
  | h r ih =>
    have hparts : ∀ x ∈ r.parts, (x.rename f).rename g = x.rename h := fun x hx =>
      ih x hx fun v hmem => hv v (Rvalue.mem_usedIn_of_mem_parts hx hmem)
    match r with
    | .expression op ty rs | .call callee signature ty rs =>
      simp only [Rvalue.rename, Rvalue.renameAll_eq, map_map]
      exact congrArg _ (map_congr_left hparts)
    | .swizzle value mask ty => exact congrArg (Rvalue.swizzle · mask ty) (hparts value mem_cons_self)
    | .dereference (.var v) =>
      exact congrArg (fun v => Rvalue.dereference (.var v)) (hv v mem_cons_self)
    | .dereference (.index base index ty) | .dereference (.field base name ty) =>
      simp_all [Rvalue.rename, Dereference.rename, Rvalue.parts]
    | .constant c => rfl
    | .texture ⟨lookup, ty, sampler, coordinate, offsets, projector, comparator⟩ =>
      cases lookup <;> cases projector <;> cases comparator <;>
        simp_all [Rvalue.rename, Texture.rename, Lookup.rename, Rvalue.renameOption, Rvalue.parts,
          Lookup.operands]

/-- Renaming nothing changes nothing, by induction over the parts. -/
theorem Rvalue.rename_id (r : Rvalue) : r.rename (fun v => v) = r := by
  induction r using Rvalue.induction with
  | h r hparts =>
    match r with
    | .expression op ty rs | .call callee signature ty rs =>
      simp only [Rvalue.rename, Rvalue.renameAll_eq]
      exact congrArg _ ((map_congr_left hparts).trans (map_id' rs))
    | .swizzle value mask ty => exact congrArg (Rvalue.swizzle · mask ty) (hparts value mem_cons_self)
    | .dereference (.var v) | .constant c => rfl
    | .dereference (.index base index ty) | .dereference (.field base name ty) =>
      simp_all [Rvalue.rename, Dereference.rename, Rvalue.parts]
    | .texture ⟨lookup, ty, sampler, coordinate, offsets, projector, comparator⟩ =>
      cases lookup <;> cases projector <;> cases comparator <;>
        simp_all [Rvalue.rename, Texture.rename, Lookup.rename, Rvalue.renameOption, Rvalue.parts,
          Lookup.operands]

theorem Dereference.rename_rename_congr (d : Dereference)
    (hv : ∀ v ∈ usedIn (d.walk depth), g (f v) = h v) : (d.rename f).rename g = d.rename h :=
  Rvalue.dereference.inj (Rvalue.rename_rename_congr (.dereference d) hv)

theorem Rvalue.renameOption_renameOption_congr (r : Option Rvalue)
    (hv : ∀ v ∈ usedIn (Rvalue.walkOption depth r), g (f v) = h v) :
    Rvalue.renameOption g (Rvalue.renameOption f r) = Rvalue.renameOption h r := by
  cases r with
  | none => rfl
  | some r => exact congrArg some (r.rename_rename_congr hv)

theorem Assignment.rename_rename_congr (a : Assignment)
    (hv : ∀ v ∈ usedIn (a.walk depth), g (f v) = h v) : (a.rename f).rename g = a.rename h := by
  unfold Assignment.walk at hv
  simp only [usedIn_append, forall_mem_append] at hv
  obtain ⟨⟨hcondition, hlhs⟩, hrhs⟩ := hv
  simp only [Assignment.rename, Rvalue.renameOption_renameOption_congr _ hcondition,
    Dereference.rename_rename_congr _ hlhs, Rvalue.rename_rename_congr _ hrhs]

/-- Two renamings of a loop's controls make one that agrees with them on what is used. -/
theorem Controls.rename_rename_congr (c : Controls)
    (hv : ∀ v ∈ usedIn (c.walk depth), g (f v) = h v) : (c.rename f).rename g = c.rename h := by
  unfold Controls.walk at hv
  simp only [usedIn_append, forall_mem_append] at hv
  obtain ⟨⟨⟨hcounter, hstart⟩, hstop⟩, hincrement⟩ := hv
  have hmap : (c.counter.map f).map g = c.counter.map h := by
    cases hc : c.counter with
    | none => rfl
    | some v =>
      rw [hc] at hcounter
      exact congrArg some (hcounter v mem_cons_self)
  simp only [Controls.rename, hmap, Rvalue.renameOption_renameOption_congr _ hstart,
    Rvalue.renameOption_renameOption_congr _ hstop, Rvalue.renameOption_renameOption_congr _ hincrement]

theorem Rvalue.rename_rename (r : Rvalue) : (r.rename f).rename g = r.rename fun v => g (f v) :=
  r.rename_rename_congr fun v (_ : v ∈ usedIn (r.walk 0)) => rfl

theorem Rvalue.renameOption_renameOption (r : Option Rvalue) :
    Rvalue.renameOption g (Rvalue.renameOption f r) = Rvalue.renameOption (fun v => g (f v)) r :=
  Rvalue.renameOption_renameOption_congr r fun v (_ : v ∈ usedIn (Rvalue.walkOption 0 r)) => rfl

theorem Assignment.rename_rename (a : Assignment) :
    (a.rename f).rename g = a.rename fun v => g (f v) :=
  a.rename_rename_congr fun v (_ : v ∈ usedIn (a.walk 0)) => rfl

theorem Controls.rename_rename (c : Controls) : (c.rename f).rename g = c.rename fun v => g (f v) :=
  c.rename_rename_congr fun v (_ : v ∈ usedIn (c.walk 0)) => rfl

theorem Rvalue.renameOption_id (r : Option Rvalue) : Rvalue.renameOption (fun v => v) r = r := by
  cases r with
  | none => rfl
  | some r => exact congrArg some r.rename_id

theorem Assignment.rename_id (a : Assignment) : a.rename (fun v => v) = a := by
  simp only [Assignment.rename, Rvalue.renameOption_id, Rvalue.rename_id,
    Rvalue.dereference.inj (Rvalue.rename_id (.dereference a.lhs))]

theorem Controls.rename_id (c : Controls) : c.rename (fun v => v) = c := by
  simp only [Controls.rename, Rvalue.renameOption_id, Option.map_id']

/-- **The copy of a value is the renamed value**, for every renaming that does to the variables of the
    value what has been done to them. -/
theorem Rvalue.clone_congr {r : Renaming} (value : Rvalue)
    (hv : ∀ v ∈ usedIn (value.walk depth), r.var v = h v) : value.clone r = value.rename h := by
  rw [value.clone_eq, ← Rvalue.rename_id (value.rename r.var)]
  exact value.rename_rename_congr hv

theorem Rvalue.cloneOption_congr {r : Renaming} (value : Option Rvalue)
    (hv : ∀ v ∈ usedIn (Rvalue.walkOption depth value), r.var v = h v) :
    Rvalue.cloneOption r value = Rvalue.renameOption h value := by
  rw [Rvalue.cloneOption_eq, ← Rvalue.renameOption_id (Rvalue.renameOption r.var value)]
  exact Rvalue.renameOption_renameOption_congr value hv

theorem Assignment.clone_congr {r : Renaming} (a : Assignment)
    (hv : ∀ v ∈ usedIn (a.walk depth), r.var v = h v) : a.clone r = a.rename h := by
  rw [a.clone_eq, ← Assignment.rename_id (a.rename r.var)]
  exact a.rename_rename_congr hv

theorem Controls.clone_congr {r : Renaming} (c : Controls)
    (hv : ∀ v ∈ usedIn (c.walk depth), r.var v = h v) : c.clone r = c.rename h := by
  rw [c.clone_eq, ← Controls.rename_id (c.rename r.var)]
  exact c.rename_rename_congr hv

end

/-! ## §5. Walks through renamed values -/

/-- What a walk meets once variables and loops have been replaced. -/
def Visit.substitute (f : Var → Var) (g : LoopId → LoopId) : Visit → Visit
  | .declare v => .declare (f v)
  | .loop id controls => .loop (g id) (controls.rename f)
  | .jump mode target => .jump mode (g target)
  | .index ty root => .index ty (root.map f)
  | .field name ty root => .field name ty (root.map f)
  | .use v => .use (f v)
  | visit => visit

/-- The step once variables and loops have been replaced. -/
def Step.substitute (f : Var → Var) (g : LoopId → LoopId) (step : Step) : Step :=
  ⟨step.depth, step.visit.substitute f g⟩

/-- What is read off the walk through a renamed value can be read off the walk through the value, if that
    is so at each node. -/
theorem Rvalue.flatMap_walk_rename {α : Type} {f : Var → Var} {p q : Step → List α}
    (h : ∀ (r : Rvalue) depth, ((r.rename f).ownSteps depth).flatMap p = (r.ownSteps depth).flatMap q)
    (depth : Nat) (r : Rvalue) : ((r.rename f).walk depth).flatMap p = (r.walk depth).flatMap q := by
  induction r using Rvalue.induction generalizing depth with
  | h r ih =>
    rw [Rvalue.walk_eq, Rvalue.walk_eq, flatMap_append, flatMap_append, h, Rvalue.inOrder_rename,
      flatMap_assoc, flatMap_assoc, flatMap_map, flatMap_def, flatMap_def]
    exact congrArg (_ ++ flatten ·) (map_congr_left fun x hx => ih x (Rvalue.mem_inOrder.mp hx) _)

section

variable (f : Var → Var) (g : LoopId → LoopId)

theorem Constant.map_substitute_walk (depth : Nat) (c : Constant) :
    (c.walk depth).map (Step.substitute f g) = c.walk depth := by
  exact (map_congr_left (Constant.of_mem_walk (fun _ _ _ => rfl) depth c)).trans (map_id' _)

/-- **A walk through a renamed value meets the renamed variables, and else what it met before.** -/
theorem Rvalue.walk_rename {f : Var → Var} (hty : ∀ v, (f v).ty = v.ty) (depth : Nat) (r : Rvalue) :
    (r.rename f).walk depth = (r.walk depth).map (Step.substitute f g) := by
  have h := Rvalue.flatMap_walk_rename (f := f) (p := fun step => [step])
    (q := fun step => [step.substitute f g]) (fun r depth => ?_) depth r
  · rwa [flatMap_singleton', ← map_eq_flatMap] at h
  rw [flatMap_singleton', ← map_eq_flatMap]
  match r with
  | .dereference (.var v) =>
    simp only [Rvalue.rename, Dereference.rename, Rvalue.ownSteps, hty v]
    rfl
  | .dereference (.index base index ty) =>
    have hroot := Dereference.root?_rename f (.index base index ty)
    simp only [Dereference.rename] at hroot
    simp only [Rvalue.rename, Dereference.rename, Rvalue.ownSteps, hroot]
    rfl
  | .dereference (.field base name ty) =>
    have hroot := Dereference.root?_rename f (.field base name ty)
    simp only [Dereference.rename] at hroot
    simp only [Rvalue.rename, Dereference.rename, Rvalue.ownSteps, hroot]
    rfl
  | .constant c => exact (Constant.map_substitute_walk f g depth c).symm
  | .expression _ _ _ | .call _ _ _ _ | .swizzle _ _ _ =>
    simp only [Rvalue.rename, Rvalue.ownSteps, Rvalue.length_renameAll]
    rfl
  | .texture ⟨_, _, _, _, _, _, _⟩ =>
    simp only [Rvalue.rename, Texture.rename, Rvalue.ownSteps, Lookup.name_rename,
      Rvalue.isSome_renameOption]
    rfl

theorem Dereference.walk_rename {f : Var → Var} (hty : ∀ v, (f v).ty = v.ty) (depth : Nat)
    (d : Dereference) : (d.rename f).walk depth = (d.walk depth).map (Step.substitute f g) :=
  Rvalue.walk_rename g hty depth (.dereference d)

theorem Rvalue.walkOption_renameOption {f : Var → Var} (hty : ∀ v, (f v).ty = v.ty) (depth : Nat)
    (r : Option Rvalue) :
    Rvalue.walkOption depth (Rvalue.renameOption f r)
      = (Rvalue.walkOption depth r).map (Step.substitute f g) := by
  cases r with
  | none => rfl
  | some r => exact r.walk_rename g hty depth

/-- A walk over a renamed assignment meets the renamed steps. -/
theorem Assignment.walk_rename {f : Var → Var} (hty : ∀ v, (f v).ty = v.ty) (depth : Nat)
    (a : Assignment) :
    (a.rename f).walk depth = (a.walk depth).map (Step.substitute f g) := by
  simp only [Assignment.rename, Assignment.walk, map_append,
    Rvalue.walkOption_renameOption g hty, Dereference.walk_rename g hty,
    Rvalue.walk_rename g hty]

theorem Controls.walk_rename {f : Var → Var} (hty : ∀ v, (f v).ty = v.ty) (depth : Nat)
    (c : Controls) :
    (c.rename f).walk depth = (c.walk depth).map (Step.substitute f g) := by
  have hcounter : ((c.counter.map f).map fun v => (⟨depth, .use v⟩ : Step)).toList
      = (c.counter.map fun v => (⟨depth, .use v⟩ : Step)).toList.map (Step.substitute f g) := by
    cases c.counter <;> rfl
  simp only [Controls.rename, Controls.walk, map_append, hcounter,
    Rvalue.walkOption_renameOption g hty]

/-- **A renamed value uses the renamed variables**, in the same order. -/
theorem Rvalue.usedIn_rename (depth : Nat) (r : Rvalue) :
    usedIn ((r.rename f).walk depth) = (usedIn (r.walk depth)).map f := by
  have husedIn (steps : List Step) :
      usedIn steps = steps.flatMap fun step => step.visit.used?.toList := by
    induction steps with
    | nil => rfl
    | cons step rest ih => rw [usedIn_cons, flatMap_cons, ih]
  rw [husedIn, husedIn, map_flatMap]
  refine Rvalue.flatMap_walk_rename (fun r depth => ?_) depth r
  match r with
  | .constant c =>
    refine (flatMap_eq_nil_iff.mpr ?_).trans (flatMap_eq_nil_iff.mpr ?_).symm
    · exact Constant.of_mem_walk (fun _ _ _ => rfl) depth c
    · exact Constant.of_mem_walk (fun _ _ _ => rfl) depth c
  | .expression _ _ _ | .call _ _ _ _ | .swizzle _ _ _ | .dereference (.var _)
  | .dereference (.index _ _ _) | .dereference (.field _ _ _) | .texture ⟨_, _, _, _, _, _, _⟩ => rfl

end

section

variable (r : Renaming) (depth : Nat)

/-- **The copy of a value uses what the variables of the value have been renewed to.** -/
theorem Rvalue.usedIn_clone (value : Rvalue) :
    usedIn ((value.clone r).walk depth) = (usedIn (value.walk depth)).map r.var := by
  rw [value.clone_eq, Rvalue.usedIn_rename]

theorem Rvalue.usedIn_cloneOption (value : Option Rvalue) :
    usedIn (Rvalue.walkOption depth (Rvalue.cloneOption r value))
      = (usedIn (Rvalue.walkOption depth value)).map r.var := by
  cases value with
  | none => rfl
  | some value => exact value.usedIn_clone r depth

theorem Assignment.usedIn_clone (a : Assignment) :
    usedIn ((a.clone r).walk depth) = (usedIn (a.walk depth)).map r.var := by
  have hlhs : usedIn ((a.lhs.clone r).walk depth) = (usedIn (a.lhs.walk depth)).map r.var :=
    Rvalue.usedIn_clone r depth (.dereference a.lhs)
  simp only [Assignment.clone, Assignment.walk, usedIn_append, map_append,
    Rvalue.usedIn_cloneOption, hlhs, Rvalue.usedIn_clone]

theorem Controls.usedIn_clone (c : Controls) :
    usedIn ((c.clone r).walk depth) = (usedIn (c.walk depth)).map r.var := by
  have hcounter : usedIn (((c.counter.map r.var).map fun v => (⟨depth, .use v⟩ : Step)).toList)
      = (usedIn (c.counter.map fun v => (⟨depth, .use v⟩ : Step)).toList).map r.var := by
    cases c.counter <;> rfl
  simp only [Controls.clone, Controls.walk, usedIn_append, map_append, hcounter,
    Rvalue.usedIn_cloneOption]

end

end Shading
