/-
  Shading.Proofs.Clone.Substitution — a copy is the piece with new variables and loops.

  `Instruction.substitute f g` replaces the variables of an instruction by `f` and its loops by `g`,
  where they are declared or entered and where they are used or left, and changes nothing else.  A
  copy is such a substitution: the `k`-th variable that the piece declares becomes the `k`-th one that
  the storage makes, and so do its loops, in the order in which a walk meets them.
-/
import Shading.Proofs.Clone.Identity
import Shading.Proofs.Clone.Rename

namespace Shading

open List Instruction

/-! ## §1. Substitution -/

section

variable (f : Var → Var) (g : LoopId → LoopId)

mutual

/-- The instruction with its variables and loops replaced. -/
def Instruction.substitute : Instruction → Instruction
  | .declare v => .declare (f v)
  | .function name signatures => .function name (Signature.substituteAll signatures)
  | .assign a => .assign (a.rename f)
  | .ret value => .ret (Rvalue.renameOption f value)
  | .branch condition thenBody elseBody =>
    .branch (condition.rename f) (Instruction.substituteAll thenBody)
      (Instruction.substituteAll elseBody)
  | .loop id controls body => .loop (g id) (controls.rename f) (Instruction.substituteAll body)
  | .jump mode target => .jump mode (g target)
  | .rvalue value => .rvalue (value.rename f)

/-- The instructions with their variables and loops replaced. -/
def Instruction.substituteAll : List Instruction → List Instruction
  | [] => []
  | i :: rest => Instruction.substitute i :: Instruction.substituteAll rest

/-- The overload with its variables and loops replaced. -/
def Signature.substitute : Signature → Signature
  | ⟨returnType, parameters, body, isDefined⟩ =>
    ⟨returnType, parameters.map f, Instruction.substituteAll body, isDefined⟩

/-- The overloads with their variables and loops replaced. -/
def Signature.substituteAll : List Signature → List Signature
  | [] => []
  | s :: rest => Signature.substitute s :: Signature.substituteAll rest

end

/-! ## §2. Walks through what was substituted -/

theorem Instruction.length_substituteAll (is : List Instruction) :
    (substituteAll f g is).length = is.length := by
  induction is with
  | nil => rfl
  | cons i rest ih => exact congrArg (· + 1) ih

theorem Signature.length_substituteAll (ss : List Signature) :
    (Signature.substituteAll f g ss).length = ss.length := by
  induction ss with
  | nil => rfl
  | cons s rest ih => exact congrArg (· + 1) ih

theorem Instruction.substituteAll_append (xs ys : List Instruction) :
    substituteAll f g (xs ++ ys)
      = substituteAll f g xs ++ substituteAll f g ys := by
  induction xs with
  | nil => rfl
  | cons i rest ih => exact congrArg (i.substitute f g :: ·) ih

/-- **A walk through what was substituted meets the new variables and loops, and else what it met
    before.** -/
theorem Instruction.walkAll_substituteAll {f : Var → Var} (hty : ∀ v, (f v).ty = v.ty)
    (depth : Nat) (is : List Instruction) :
    walkAll depth (substituteAll f g is)
      = (walkAll depth is).map (Step.substitute f g) := by
  induction is using induction generalizing depth with
  | nil => rfl
  | append xs ys ih1 ih2 =>
    simp only [substituteAll_append, walkAll_append, map_append, ih1, ih2]
  | leaf i h =>
    simp only [substituteAll, walkAll_singleton]
    cases i with
    | function | branch | loop => cases h
    | declare | jump => rfl
    | assign a =>
      simp only [substitute, walk, map_cons, Assignment.walk_rename g hty]
      simp only [Assignment.rename, Rvalue.isSome_renameOption]
      rfl
    | ret value =>
      simp only [substitute, walk, map_cons,
        Rvalue.walkOption_renameOption g hty]
      rfl
    | rvalue value => exact value.walk_rename g hty depth
  | branch condition _ _ ih1 ih2 =>
    simp only [substituteAll, substitute, walkAll_singleton, walk,
      map_cons, map_append, length_substituteAll, condition.walk_rename g hty, ih1, ih2]
    rfl
  | loop _ controls _ ih =>
    simp only [substituteAll, substitute, walkAll_singleton, walk,
      map_cons, map_append, length_substituteAll, controls.walk_rename g hty, ih]
    rfl
  | function _ => rfl
  | overload _ _ _ _ _ signatures ih1 ih2 =>
    have hothers := (cons.inj ((walkAll_singleton ..).symm.trans
      ((ih2 depth).trans (congrArg (map _) (walkAll_singleton ..))))).2
    simp only [substituteAll, substitute, Signature.substituteAll,
      Signature.substitute, walkAll_singleton, walk, Signature.walkAll, Signature.walk,
      length_cons, length_map, map_cons, map_append, map_map, length_substituteAll,
      Signature.length_substituteAll, ih1, hothers]
    rfl

end

/-! ## §3. New variables and loops -/

/-- The variable that stands for this one once the declared ones have been numbered anew: the `k`-th
    of them has the number `first + k` and is otherwise the same, and others stand for themselves. -/
def Var.renewed (first : Nat) (declared : List Var) (v : Var) : Var :=
  match (declared.map (·.id)).idxOf? v.id with
  | some k => ⟨first + k, v.value⟩
  | none => v

/-- The loop that stands for this one once the loops have been numbered anew. -/
def LoopId.renewed (first : Nat) (loops : List LoopId) (id : LoopId) : LoopId :=
  match (loops.map (·.number)).idxOf? id.number with
  | some k => ⟨first + k⟩
  | none => id

/-- A renewed variable differs in its identity only. -/
theorem Var.value_renewed (first : Nat) (declared : List Var) (v : Var) :
    (v.renewed first declared).value = v.value := by
  unfold Var.renewed
  split <;> rfl

section

variable {α : Type} {key : α → Nat} {target : Nat → α → α} {xs ys : List α} {f g : α → α}

/-- The function replaces what is listed, as its place in the list says, and nothing else. -/
structure Assigns (key : α → Nat) (target : Nat → α → α) (xs : List α) (f : α → α) : Prop where
  listed : ∀ k x, xs[k]? = some x → f x = target k x
  unlisted : ∀ x, key x ∉ xs.map key → f x = x

namespace Assigns

theorem nil (h : ∀ x, f x = x) : Assigns key target [] f :=
  ⟨fun _ _ hk => (not_mem_nil (mem_of_getElem? hk)).elim, fun x _ => h x⟩

/-- One more entry at the end leaves all earlier ones as they are. -/
theorem snoc (h : Assigns key target xs f) {x : α} (hx : key x ∉ xs.map key)
    (hself : g x = target xs.length x) (hother : ∀ y, key y ≠ key x → g y = f y) :
    Assigns key target (xs ++ [x]) g where
  listed := fun k y hk => by
    rcases Nat.lt_or_ge k xs.length with hlt | hge
    · rw [getElem?_append_left hlt] at hk
      have hne : key y ≠ key x := fun heq =>
        hx (heq ▸ mem_map_of_mem (mem_of_getElem? hk))
      rw [hother y hne, h.listed k y hk]
    · rw [getElem?_append_right hge, getElem?_singleton] at hk
      split at hk
      next =>
        cases hk
        rw [hself, show k = xs.length by omega]
      next => cases hk
  unlisted := fun y hy => by
    rw [map_append, mem_append, not_or] at hy
    rw [hother y fun heq => hy.2 (mem_singleton.mpr heq), h.unlisted y hy.1]

/-- A longer list of entries agrees with a shorter one on what both assign. -/
theorem eq_of_mem (h : Assigns key target xs f) (h' : Assigns key target ys g) (hpre : xs <+: ys)
    {x : α} (hx : x ∈ xs) : f x = g x := by
  obtain ⟨k, hk⟩ := mem_iff_getElem?.mp hx
  obtain ⟨more, rfl⟩ := hpre
  have hk' : (xs ++ more)[k]? = some x := by
    rw [getElem?_append_left (List.getElem?_eq_some_iff.mp hk).1, hk]
  rw [h.listed k x hk, h'.listed k x hk']

theorem eq_of_not_mem (h : Assigns key target xs f) (h' : Assigns key target ys g) (hpre : xs <+: ys)
    {x : α} (hx : key x ∉ ys.map key) : f x = g x := by
  have hx' : key x ∉ xs.map key := fun hmem => hx (map_subset key hpre.subset hmem)
  rw [h.unlisted x hx', h'.unlisted x hx]

end Assigns

theorem next_of_prefix {x : α} (hys : (ys.map key).Nodup) {more : List α} (h : xs ++ x :: more <+: ys) :
    key x ∉ xs.map key ∧ ys[xs.length]? = some x := by
  obtain ⟨rest, rfl⟩ := h
  rw [append_assoc, cons_append] at hys ⊢
  rw [map_append, map_cons, nodup_append] at hys
  refine ⟨fun hx => hys.2.2 _ hx _ mem_cons_self rfl, ?_⟩
  rw [getElem?_append_right (Nat.le_refl _), Nat.sub_self]
  rfl

theorem idxOf?_of_getElem? (hxs : (xs.map key).Nodup) {k : Nat} {x : α} (h : xs[k]? = some x) :
    (xs.map key).idxOf? (key x) = some k := by
  obtain ⟨hk, rfl⟩ := List.getElem?_eq_some_iff.mp h
  have hk' : k < (xs.map key).length := by rwa [length_map]
  refine idxOf?_eq_some_iff.mpr ⟨hk', getElem_map key, fun j hj heq => ?_⟩
  exact pairwise_iff_getElem.mp hxs j k (by omega) hk' hj (heq.trans (getElem_map key).symm)

end

/-- Numbering the declared variables in order assigns them their numbers. -/
theorem Var.assigns_renewed (first : Nat) {declared : List Var}
    (h : (declared.map (·.id)).Nodup) :
    Assigns (·.id) (fun k v => ⟨first + k, v.value⟩) declared (Var.renewed first declared) where
  listed := fun k v hk => by
    unfold Var.renewed
    rw [idxOf?_of_getElem? h hk]
  unlisted := fun v hv => by
    unfold Var.renewed
    rw [idxOf?_eq_none_iff.mpr hv]

theorem LoopId.assigns_renewed (first : Nat) {loops : List LoopId}
    (h : (loops.map (·.number)).Nodup) :
    Assigns (·.number) (fun k _ => ⟨first + k⟩) loops (LoopId.renewed first loops) where
  listed := fun k id hk => by
    unfold LoopId.renewed
    rw [idxOf?_of_getElem? h hk]
  unlisted := fun id hid => by
    unfold LoopId.renewed
    rw [idxOf?_eq_none_iff.mpr hid]

/-! ## §4. Copying -/

/-- The jumps, each with the loops around it. -/
def Gathering.jumpsAround : Gathering (List LoopId) (List LoopId × LoopId) where
  leaf
    | around, .jump _ target => [(around, target)]
    | _, _ => []
  enter around id := id :: around

/-- The jumps to one of the loops stand inside of it.  The loops around the instructions are given. -/
def JumpsInside (loops around : List LoopId) (is : List Instruction) : Prop :=
  ∀ j ∈ gatherAll .jumpsAround around is, j.2 ∈ loops → j.2 ∈ j.1

instance (loops around : List LoopId) (is : List Instruction) :
    Decidable (JumpsInside loops around is) :=
  inferInstanceAs (Decidable (∀ j ∈ _, _ → _))

/-- The variables `vs` and the loops `ls` have been renewed, and nothing else. -/
structure Renewed (s : Storage) (vs : List Var) (ls : List LoopId) (c : CloneState) : Prop where
  storage : c.storage = { s with
    vars := ⟨s.vars.issued + vs.length⟩, loops := ⟨s.loops.issued + ls.length⟩ }
  vars : Assigns (·.id) (fun k v => ⟨s.vars.issued + k, v.value⟩) vs c.renewed.var
  loops : Assigns (·.number) (fun k _ => ⟨s.loops.issued + k⟩) ls c.renewed.loop

namespace Renewed

variable {s : Storage} {vs : List Var} {ls : List LoopId} {c : CloneState}

theorem empty (s : Storage) : Renewed s [] [] ⟨s, .empty⟩ :=
  ⟨rfl, .nil fun _ => rfl, .nil fun _ => rfl⟩

/-- The next variable to be declared is given the next number. -/
theorem declare (h : Renewed s vs ls c) {v : Var} (hv : v.id ∉ vs.map (·.id)) :
    ((CloneM.declare v).run c).1 = ⟨s.vars.issued + vs.length, v.value⟩
      ∧ Renewed s (vs ++ [v]) ls ((CloneM.declare v).run c).2 := by
  have hfresh : ((CloneM.declare v).run c).1 = ⟨s.vars.issued + vs.length, v.value⟩ := by
    show (⟨c.storage.vars.issued, v.value⟩ : Var) = _
    rw [h.storage]
  refine ⟨hfresh, ?_, h.vars.snoc hv ?_ ?_, h.loops⟩
  · show ({ c.storage with vars := ⟨c.storage.vars.issued + 1⟩ } : Storage) = _
    rw [h.storage, length_append]
    rfl
  · show (((v.id, ((CloneM.declare v).run c).1) :: c.renewed.vars).lookup v.id).getD v = _
    rw [lookup_cons_self, hfresh]
    rfl
  · intro u hu
    show (((v.id, _) :: c.renewed.vars).lookup u.id).getD u = _
    rw [lookup_cons, beq_false_of_ne hu]
    rfl

/-- The next loop to be met is given the next number. -/
theorem newLoop (h : Renewed s vs ls c) {id : LoopId} (hid : id.number ∉ ls.map (·.number)) :
    ((CloneM.newLoop id).run c).1 = ⟨s.loops.issued + ls.length⟩
      ∧ Renewed s vs (ls ++ [id]) ((CloneM.newLoop id).run c).2 := by
  have hfresh : ((CloneM.newLoop id).run c).1 = ⟨s.loops.issued + ls.length⟩ := by
    show (⟨c.storage.loops.issued⟩ : LoopId) = _
    rw [h.storage]
  refine ⟨hfresh, ?_, h.vars, h.loops.snoc hid ?_ ?_⟩
  · show ({ c.storage with loops := ⟨c.storage.loops.issued + 1⟩ } : Storage) = _
    rw [h.storage, length_append]
    rfl
  · show (((id, ((CloneM.newLoop id).run c).1) :: c.renewed.loops).lookup id).getD id = _
    rw [lookup_cons_self, hfresh]
    rfl
  · intro other hother
    have hne : other ≠ id := fun heq => hother (congrArg LoopId.number heq)
    show (((id, _) :: c.renewed.loops).lookup other).getD other = _
    rw [lookup_cons, beq_false_of_ne hne]
    rfl

end Renewed

section

variable {s : Storage} {shared D vs : List Var} {L ls : List LoopId} {xs ys : List Step}

/-- What a walk declares and enters, each once; `shared` is not declared. -/
structure Listed (shared D : List Var) (L : List LoopId) : Prop where
  vars : (D.map (·.id)).Nodup
  loops : (L.map (·.number)).Nodup
  foreign : ∀ v ∈ shared, v.id ∉ D.map (·.id)

/-- A part of the walk is still to come: `vs` and `ls` have been met. -/
structure Pending (shared D : List Var) (L : List LoopId) (vs : List Var) (ls : List LoopId)
    (steps : List Step) : Prop where
  listed : Listed shared D L
  vars : vs ++ declaredIn steps <+: D
  loops : ls ++ loopsIn steps <+: L
  inScope : Scoped (shared ++ vs) steps

namespace Pending

/-- What is still to be copied is split where the list is. -/
theorem append (h : Pending shared D L vs ls (xs ++ ys)) :
    Pending shared D L vs ls xs
      ∧ Pending shared D L (vs ++ declaredIn xs) (ls ++ loopsIn xs) ys := by
  obtain ⟨hlisted, hvars, hloops, hscope⟩ := h
  rw [declaredIn_append, ← append_assoc] at hvars
  rw [loopsIn_append, ← append_assoc] at hloops
  rw [scoped_append, append_assoc] at hscope
  exact ⟨⟨hlisted, (prefix_append _ _).trans hvars, (prefix_append _ _).trans hloops,
    hscope.1⟩, ⟨hlisted, hvars, hloops, hscope.2⟩⟩

theorem tail {step : Step} (h : Pending shared D L vs ls (step :: ys))
    (hvar : step.visit.declared? = none) (hloop : step.visit.loop? = none) :
    Pending shared D L vs ls ys := by
  obtain ⟨hlisted, hvars, hloops, hscope⟩ := h
  rw [declaredIn_cons, hvar] at hvars
  rw [loopsIn_cons, hloop] at hloops
  have hrest := hscope.2
  rw [hvar, Option.toList_none, List.append_nil] at hrest
  exact ⟨hlisted, hvars, hloops, hrest⟩

theorem quiet {step : Step} (h : Pending shared D L vs ls ys) (hvar : step.visit.declared? = none)
    (hloop : step.visit.loop? = none) (hused : step.visit.used? = none) :
    Pending shared D L vs ls (step :: ys) := by
  obtain ⟨hlisted, hvars, hloops, hscope⟩ := h
  refine ⟨hlisted, ?_, ?_, ?_, ?_⟩
  · rwa [declaredIn_cons, hvar]
  · rwa [loopsIn_cons, hloop]
  · rw [hused]
    exact nofun
  · rwa [hvar, Option.toList_none, List.append_nil]

theorem cons {step : Step} (h : Pending shared D L vs ls (step :: ys)) :
    Pending shared D L (vs ++ declaredIn [step]) (ls ++ loopsIn [step]) ys :=
  (append (show Pending shared D L vs ls ([step] ++ ys) from h)).2

end Pending

/-- What was copied is what substitution gives, and what the steps declare and enter has been
    renewed. -/
structure Copied {α : Type} (s : Storage) (vs : List Var) (ls : List LoopId) (steps : List Step)
    (expected : α) (result : α × CloneState) : Prop where
  copy : result.1 = expected
  renewed : Renewed s (vs ++ declaredIn steps) (ls ++ loopsIn steps) result.2

section

variable {c : CloneState} (hc : Renewed s vs ls c)

include hc

/-- The variables used by values have been declared, so they are renamed for good. -/
theorem Renewed.var_eq (hsteps : Pending shared D L vs ls xs) (hvalues : OfValues xs) :
    ∀ v ∈ usedIn xs, c.renewed.var v = v.renewed s.vars.issued D := by
  intro v hv
  have hpre : vs <+: D := (prefix_append _ _).trans hsteps.vars
  have hrenewed := Var.assigns_renewed s.vars.issued hsteps.listed.vars
  rcases mem_append.mp (hvalues.mem_known hsteps.inScope v hv) with hv | hv
  · exact hc.vars.eq_of_not_mem hrenewed hpre (hsteps.listed.foreign v hv)
  · exact hc.vars.eq_of_mem hrenewed hpre hv

theorem Renewed.copied_declare {depth : Nat} {v : Var}
    (hsteps : Pending shared D L vs ls (⟨depth, .declare v⟩ :: ys)) :
    Copied s vs ls [⟨depth, .declare v⟩] (v.renewed s.vars.issued D) ((CloneM.declare v).run c) := by
  obtain ⟨hnew, hplace⟩ := next_of_prefix hsteps.listed.vars hsteps.vars
  obtain ⟨hfresh, hrenewed⟩ := hc.declare hnew
  have hlisted := (Var.assigns_renewed s.vars.issued hsteps.listed.vars).listed _ v hplace
  refine ⟨hfresh.trans hlisted.symm, ?_⟩
  show Renewed s (vs ++ [v]) (ls ++ []) _
  rwa [List.append_nil]

theorem Renewed.copied_newLoop {depth : Nat} {id : LoopId} {controls : Controls}
    (hsteps : Pending shared D L vs ls (⟨depth, .loop id controls⟩ :: ys)) :
    Copied s vs ls [⟨depth, .loop id controls⟩] (id.renewed s.loops.issued L)
      ((CloneM.newLoop id).run c) := by
  obtain ⟨hnew, hplace⟩ := next_of_prefix hsteps.listed.loops hsteps.loops
  obtain ⟨hfresh, hrenewed⟩ := hc.newLoop hnew
  have hlisted := (LoopId.assigns_renewed s.loops.issued hsteps.listed.loops).listed _ id hplace
  refine ⟨hfresh.trans hlisted.symm, ?_⟩
  show Renewed s (vs ++ []) (ls ++ [id]) _
  rwa [List.append_nil]

/-- A jump leads to a loop around it, which has been numbered before. -/
theorem Renewed.loop_eq (hsteps : Pending shared D L vs ls xs) {around : List LoopId}
    (haround : ∀ id ∈ around, id ∈ ls) {target : LoopId} (htarget : target ∈ L → target ∈ around) :
    c.renewed.loop target = target.renewed s.loops.issued L := by
  have hpre : ls <+: L := (prefix_append _ _).trans hsteps.loops
  have hrenewed := LoopId.assigns_renewed s.loops.issued hsteps.listed.loops
  by_cases hmem : target ∈ L
  · exact hc.loops.eq_of_mem hrenewed hpre (haround target (htarget hmem))
  · refine hc.loops.eq_of_not_mem hrenewed hpre fun hnumber => hmem ?_
    obtain ⟨id, hid, hnumber⟩ := mem_map.mp hnumber
    have heq : id = target := congrArg LoopId.mk hnumber
    exact heq ▸ hid

end

namespace Copied

variable {α β γ : Type} {a : α} {c : CloneState}

/-- Values are copied under the map at hand and declare nothing. -/
theorem of_values (hc : Renewed s vs ls c) {x : α} (hx : x = a) (hvalues : OfValues xs) :
    Copied s vs ls xs a (x, c) := by
  refine ⟨hx, ?_⟩
  rwa [hvalues.declaredIn_eq, hvalues.loopsIn_eq, List.append_nil, List.append_nil]

theorem cons {result : α × CloneState} (step : Step) (h : Copied s vs ls xs a result)
    (hvar : step.visit.declared? = none) (hloop : step.visit.loop? = none) :
    Copied s vs ls (step :: xs) a result := by
  refine ⟨h.copy, ?_⟩
  rw [declaredIn_cons, loopsIn_cons, hvar, hloop]
  exact h.renewed

/-- Copies of two parts make a copy of both. -/
theorem both {f : α → β → γ} {b : β} {first : α × CloneState} {second : β × CloneState}
    (h : Copied s vs ls xs a first)
    (h' : Copied s (vs ++ declaredIn xs) (ls ++ loopsIn xs) ys b second) :
    Copied s vs ls (xs ++ ys) (f a b) (f first.1 second.1, second.2) := by
  refine ⟨by rw [h.copy, h'.copy], ?_⟩
  rw [declaredIn_append, loopsIn_append, ← append_assoc, ← append_assoc]
  exact h'.renewed

/-- The parameters are declared one by one. -/
theorem declareAll (depth : Nat) (params : List Var) (hc : Renewed s vs ls c)
    (hsteps : Pending shared D L vs ls (params.map fun v => ⟨depth, .declare v⟩)) :
    Copied s vs ls (params.map fun v => ⟨depth, .declare v⟩)
      (params.map (Var.renewed s.vars.issued D)) ((CloneM.declareAll params).run c) := by
  induction params generalizing vs ls c with
  | nil => exact of_values hc rfl ofValues_nil
  | cons v rest ih =>
    have h := hc.copied_declare hsteps
    exact h.both (ih h.renewed hsteps.cons)

end Copied

/-- **Copying a list renames it once and for all**, by induction over the instructions.  The map
    that is built along the way agrees with the final one on everything that was met so far. -/
theorem Instruction.copied_cloneAll (depth : Nat) (is : List Instruction) {around : List LoopId}
    {vs : List Var} {ls : List LoopId} {c : CloneState} (hc : Renewed s vs ls c)
    (hsteps : Pending shared D L vs ls (walkAll depth is))
    (hjumps : JumpsInside L around is) (haround : ∀ id ∈ around, id ∈ ls) :
    Copied s vs ls (walkAll depth is)
      (substituteAll (Var.renewed s.vars.issued D) (LoopId.renewed s.loops.issued L) is)
      ((cloneAll is).run c) := by
  induction is using induction generalizing depth around vs ls c with
  | nil => exact .of_values hc rfl ofValues_nil
  | append xs ys ih1 ih2 =>
    rw [JumpsInside, gatherAll_append] at hjumps
    obtain ⟨hjumps1, hjumps2⟩ := forall_mem_append.mp hjumps
    rw [walkAll_append] at hsteps ⊢
    obtain ⟨hfirst, hrest⟩ := hsteps.append
    have h := ih1 depth hc hfirst hjumps1 haround
    have h' := ih2 depth h.renewed hrest hjumps2 fun id hid => mem_append_left _ (haround id hid)
    rw [substituteAll_append, cloneAll_append]
    exact h.both h'
  | leaf i hi =>
    rw [walkAll_singleton] at hsteps ⊢
    cases i with
    | function | branch | loop => cases hi
    | declare v =>
      have h := hc.copied_declare hsteps
      exact ⟨congrArg (fun v => [Instruction.declare v]) h.copy, h.renewed⟩
    | assign a =>
      have hvalues := Assignment.ofValues_walk (depth + 1) a
      have hvars := hc.var_eq (hsteps.tail rfl rfl) hvalues
      exact .of_values hc (congrArg (fun a => [Instruction.assign a]) (Assignment.clone_congr a hvars))
        (ofValues_cons.mpr ⟨⟨rfl, rfl⟩, hvalues⟩)
    | ret value =>
      have hvalues := Rvalue.ofValues_walkOption (depth + 1) value
      have hvars := hc.var_eq (hsteps.tail rfl rfl) hvalues
      exact .of_values hc (congrArg (fun v => [Instruction.ret v]) (Rvalue.cloneOption_congr value hvars))
        (ofValues_cons.mpr ⟨⟨rfl, rfl⟩, hvalues⟩)
    | jump mode target =>
      have htarget := hc.loop_eq hsteps haround (hjumps (around, target) (mem_singleton.mpr rfl))
      exact .of_values hc (congrArg (fun id => [Instruction.jump mode id]) htarget)
        (ofValues_cons.mpr ⟨⟨rfl, rfl⟩, ofValues_nil⟩)
    | rvalue value =>
      have hvalues := Rvalue.ofValues_walk depth value
      have hvars := hc.var_eq hsteps hvalues
      exact .of_values hc (congrArg (fun r => [Instruction.rvalue r]) (Rvalue.clone_congr value hvars))
        hvalues
  | branch condition thenBody elseBody ih1 ih2 =>
    rw [walkAll_singleton] at hsteps ⊢
    obtain ⟨hjumps1, hjumps2⟩ := forall_mem_append.mp hjumps
    obtain ⟨hhead, helse⟩ := (hsteps.tail rfl rfl).append
    obtain ⟨hcondition, hthen⟩ := hhead.append
    have hvars := hc.var_eq hcondition (Rvalue.ofValues_walk (depth + 1) condition)
    -- the condition brings nothing along, so the first block starts where the branch does
    have h1 : Copied s vs ls (condition.walk (depth + 1)) _ (condition.clone c.renewed, c) :=
      .of_values hc (Rvalue.clone_congr condition hvars) (Rvalue.ofValues_walk _ condition)
    have h2 := ih1 (depth + 2) h1.renewed (hthen.tail rfl rfl) hjumps1
      fun id hid => mem_append_left _ (haround id hid)
    have h12 := h1.both (f := Prod.mk) (h2.cons ⟨depth + 1, .block thenBody.length⟩ rfl rfl)
    have h3 := ih2 (depth + 2) h12.renewed (helse.tail rfl rfl) hjumps2
      fun id hid => mem_append_left _ (haround id hid)
    exact Copied.cons _ (h12.both (f := fun p e => [Instruction.branch p.1 p.2 e])
      (h3.cons ⟨depth + 1, .block elseBody.length⟩ rfl rfl)) rfl rfl
  | loop id controls body ih =>
    rw [walkAll_singleton] at hsteps ⊢
    obtain ⟨hcontrols, hbody⟩ := hsteps.cons.append
    have h0 := hc.copied_newLoop hsteps
    have hvars := h0.renewed.var_eq hcontrols (Controls.ofValues_walk (depth + 1) controls)
    have h1 := Copied.of_values h0.renewed (Controls.clone_congr controls hvars)
      (Controls.ofValues_walk (depth + 1) controls)
    -- inside of the body the loop is one of those around it
    have hinside : ∀ inner ∈ id :: around, inner ∈ ls ++ [id] := fun inner hinner => by
      rcases mem_cons.mp hinner with rfl | hinner
      · exact mem_append_right _ mem_cons_self
      · exact mem_append_left _ (haround inner hinner)
    have h2 := ih (depth + 2) h1.renewed (hbody.tail rfl rfl) hjumps
      fun inner hinner => mem_append_left _ (hinside inner hinner)
    have h12 := h1.both (f := Prod.mk) (h2.cons ⟨depth + 1, .block body.length⟩ rfl rfl)
    exact h0.both (f := fun id p => [Instruction.loop id p.1 p.2]) h12
  | function name => exact .of_values hc rfl (ofValues_cons.mpr ⟨⟨rfl, rfl⟩, ofValues_nil⟩)
  | overload name returnType parameters body isDefined signatures ih1 ih2 =>
    rw [walkAll_singleton] at hsteps ⊢
    obtain ⟨hjumps1, hjumps2⟩ := forall_mem_append.mp hjumps
    obtain ⟨hfirst, hrest⟩ := (hsteps.tail rfl rfl).append
    obtain ⟨hparameters, hbody⟩ := (hfirst.tail rfl rfl).append
    have h1 := Copied.declareAll (depth + 2) parameters hc hparameters
    have h2 := ih1 (depth + 3) h1.renewed (hbody.tail rfl rfl) hjumps1
      fun id hid => mem_append_left _ (haround id hid)
    have h12 := Copied.cons ⟨depth + 1, .signature name returnType parameters.length isDefined⟩
      (h1.both (f := fun p b => Signature.mk returnType p b isDefined)
        (h2.cons ⟨depth + 2, .block body.length⟩ rfl rfl)) rfl rfl
    -- the other overloads are those of a function of their own
    have h3 := ih2 depth h12.renewed (by rw [walkAll_singleton]; exact hrest.quiet rfl rfl rfl) hjumps2
      fun id hid => mem_append_left _ (haround id hid)
    rw [walkAll_singleton] at h3
    have h3' : Copied s _ _ (Signature.walkAll (depth + 1) name signatures)
        (Signature.substituteAll _ _ signatures) ((Signature.cloneAll signatures).run _) :=
      ⟨(function.inj (cons.inj h3.copy).1).2, h3.renewed⟩
    exact Copied.cons _ (h12.both (f := fun s ss => [function name (s :: ss)]) h3') rfl rfl

end

/-! ## §5. Copies of lists -/

/-- The variables that the list uses and does not declare. -/
def foreignVars (is : List Instruction) : List Var :=
  (usedVars is).filter fun v => v.id ∉ (declaredVars is).map (·.id)

/-- Each variable is declared at most once, and before it is used; each loop stands at one place, and
    the jumps to it inside of it. -/
structure WellOrdered (is : List Instruction) : Prop where
  declared : ((declaredVars is).map (·.id)).Nodup
  loops : (loopIds is).Nodup
  used : Scoped (foreignVars is) (walkModule is)
  jumps : JumpsInside (loopIds is) [] is

/-- **A copy is the list with new variables and loops.**  The `k`-th variable that the list declares
    and the `k`-th loop that it has become the `k`-th ones that the storage makes; a walk through the
    copy meets them wherever it met the old ones, and all else as it was. -/
theorem Instruction.cloneAll_eq_substituteAll (s : Storage) (is : List Instruction)
    (h : WellOrdered is) :
    let f := Var.renewed s.vars.issued (declaredVars is)
    let g := LoopId.renewed s.loops.issued (loopIds is)
    let result := (Instruction.cloneAll is).run ⟨s, .empty⟩
    result.1 = Instruction.substituteAll f g is
      ∧ walkModule result.1 = (walkModule is).map (Step.substitute f g)
      ∧ result.2.storage = { s with
          vars := ⟨s.vars.issued + (declaredVars is).length⟩
          loops := ⟨s.loops.issued + (loopIds is).length⟩ } := by
  have hnumbers : ((loopIds is).map (·.number)).Nodup :=
    List.Pairwise.map _ (fun a b hne heq => hne (congrArg LoopId.mk heq)) h.loops
  have hlisted : Listed (foreignVars is) (declaredVars is) (loopIds is) :=
    ⟨h.declared, hnumbers, fun v hv => of_decide_eq_true (mem_filter.mp hv).2⟩
  have hpending : Pending (foreignVars is) (declaredVars is) (loopIds is) [] [] (walkModule is) :=
    ⟨hlisted, prefix_refl _, prefix_refl _, by rw [List.append_nil]; exact h.used⟩
  have hcopied := copied_cloneAll 0 is (.empty s) hpending h.jumps nofun
  have hwalk := walkAll_substituteAll (LoopId.renewed s.loops.issued (loopIds is))
    (fun v => congrArg Variable.ty (Var.value_renewed s.vars.issued (declaredVars is) v)) 0 is
  exact ⟨hcopied.copy, (congrArg walkModule hcopied.copy).trans hwalk, hcopied.renewed.storage⟩

/-- A function whose loops are counted and left by jumps.  It reads a variable that is declared
    elsewhere. -/
def countedLoops : List Instruction :=
  let limit : Var := ⟨0, { name := "limit", ty := .scalar .int }⟩
  let i : Var := ⟨1, { name := "i", ty := .scalar .int }⟩
  let total : Var := ⟨2, { name := "total", ty := .scalar .int, mode := .temporary }⟩
  let use (v : Var) : Rvalue := .dereference (.var v)
  [.function "sum" [⟨.void, [i],
    [.loop ⟨0⟩ { counter := some i, stop := some (use limit), comparison := some .greaterEqual }
      [.declare total,
        .assign (.whole (.var total) (use i) (some (use limit))),
        .loop ⟨1⟩ {} [.jump .break ⟨1⟩],
        .jump .continue ⟨0⟩]],
    true⟩]]

theorem Instruction.cloneAll_eq_substituteAll_countedLoops :
    WellOrdered countedLoops
      ∧ ((Instruction.cloneAll countedLoops).run ⟨⟨⟨3⟩, ⟨2⟩, ⟨0⟩⟩, .empty⟩).1
        = Instruction.substituteAll (Var.renewed 3 (declaredVars countedLoops))
            (LoopId.renewed 2 (loopIds countedLoops)) countedLoops := by
  have h : WellOrdered countedLoops :=
    ⟨by decide +kernel, by decide +kernel, by decide +kernel, by decide +kernel⟩
  exact ⟨h, (cloneAll_eq_substituteAll ⟨⟨3⟩, ⟨2⟩, ⟨0⟩⟩ countedLoops h).1⟩

end Shading
