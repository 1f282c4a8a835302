/-
  Shading.Proofs.Clone.Forget — copies differ from the piece in numbers only.

  The variables of a piece were made by one storage: their numbers have been issued, and a number
  determines the variable.  `Drawn made` says this of variables, where `made` lists what the storage
  has made.  A copy of such a piece is drawn from the storage after copying, and is the piece again once
  the numbers of variables and loops are forgotten.
-/
import Shading.Proofs.Clone.Substitution

namespace Shading

open List Instruction

/-! ## §1. Forgetting numbers -/

/-- The variable without its number. -/
def Var.forget (v : Var) : Var := ⟨0, v.value⟩

/-- No loop in particular. -/
def LoopId.forget (_ : LoopId) : LoopId := ⟨0⟩

/-- The instructions without the numbers of variables and loops. -/
abbrev Instruction.forgetAll (is : List Instruction) : List Instruction :=
  substituteAll Var.forget LoopId.forget is

theorem Instruction.forgetAll_append (xs ys : List Instruction) :
    forgetAll (xs ++ ys) = forgetAll xs ++ forgetAll ys :=
  substituteAll_append _ _ xs ys

/-! ## §2. Variables from a storage -/

/-- The storage has made this variable. -/
def Var.MadeIn (made : List Variable) (v : Var) : Prop := made[v.id]? = some v.value

instance (made : List Variable) (v : Var) : Decidable (v.MadeIn made) :=
  inferInstanceAs (Decidable (_ = _))

/-- What is declared and what is used. -/
def Gathering.vars : Gathering Unit Var where
  leaf
    | _, .declare v => [v]
    | _, .assign a => a.uses
    | _, .ret value => usedIn (Rvalue.walkOption 0 value)
    | _, .rvalue r => r.uses
    | _, _ => []
  parameters vs := vs
  condition r := r.uses
  loop _ controls _ inside := controls.uses ++ inside

/-- The variables that the instructions declare or use. -/
def Instruction.varsAll (is : List Instruction) : List Var := gatherAll .vars () is

theorem Instruction.varsAll_append (xs ys : List Instruction) :
    varsAll (xs ++ ys) = varsAll xs ++ varsAll ys :=
  gatherAll_append .vars () xs ys

/-- The storage has made the variables. -/
def Drawn (made : List Variable) (vs : List Var) : Prop := ∀ v ∈ vs, v.MadeIn made

instance (made : List Variable) (vs : List Var) : Decidable (Drawn made vs) :=
  inferInstanceAs (Decidable (∀ v ∈ vs, _))

section

variable {made made' : List Variable}

/-- What is made stays made. -/
theorem Var.MadeIn.mono {v : Var} (h : v.MadeIn made) (hpre : made <+: made') : v.MadeIn made' := by
  obtain ⟨more, rfl⟩ := hpre
  exact (getElem?_append_left (List.getElem?_eq_some_iff.mp h).1).trans h

theorem Drawn.mono {vs : List Var} (h : Drawn made vs) (hpre : made <+: made') : Drawn made' vs :=
  fun v hv => (h v hv).mono hpre

theorem drawn_append {xs ys : List Var} :
    Drawn made (xs ++ ys) ↔ Drawn made xs ∧ Drawn made ys := forall_mem_append

end

/-! ## §3. Copying -/

/-- What has been renewed so far was made by the storage, and so was what stands for it. -/
structure Copying (made : List Variable) (c : CloneState) : Prop where
  size : made.length = c.storage.vars.issued
  entries : ∀ e ∈ c.renewed.vars, made[e.1]? = some e.2.value ∧ e.2.MadeIn made

namespace Copying

variable {made : List Variable} {c : CloneState}

theorem empty {s : Storage} (h : made.length = s.vars.issued) : Copying made ⟨s, .empty⟩ :=
  ⟨h, fun e he => by cases he⟩

/-- Renaming replaces a variable by one of the same value. -/
theorem var (h : Copying made c) {v : Var} (hv : v.MadeIn made) :
    (c.renewed.var v).value = v.value ∧ (c.renewed.var v).MadeIn made := by
  unfold Renaming.var
  cases hfresh : c.renewed.vars.lookup v.id with
  | none => exact ⟨rfl, hv⟩
  | some fresh =>
    obtain ⟨before, after, heq, -⟩ := lookup_eq_some_iff.mp hfresh
    obtain ⟨hold, hnew⟩ := h.entries (v.id, fresh) (by rw [heq]; simp)
    exact ⟨Option.some.inj (hold.symm.trans hv), hnew⟩

/-- A declared copy has the value of its original and is made last. -/
theorem declare (h : Copying made c) {v : Var} (hv : v.MadeIn made) :
    ((CloneM.declare v).run c).1.MadeIn (made ++ [v.value])
      ∧ Copying (made ++ [v.value]) ((CloneM.declare v).run c).2 := by
  have hfresh : ((CloneM.declare v).run c).1.MadeIn (made ++ [v.value]) := by
    show (made ++ [v.value])[c.storage.vars.issued]? = some v.value
    rw [← h.size, getElem?_concat_length]
  have hold {w : Var} (hw : w.MadeIn made) : w.MadeIn (made ++ [v.value]) :=
    hw.mono (prefix_append _ _)
  refine ⟨hfresh, ?_, fun e he => ?_⟩
  · show (made ++ [v.value]).length = c.storage.vars.issued + 1
    rw [length_append, h.size]
    rfl
  · rcases mem_cons.mp he with rfl | he
    · exact ⟨hold hv, hfresh⟩
    · obtain ⟨hkey, hvalue⟩ := h.entries e he
      exact ⟨hold (w := ⟨e.1, e.2.value⟩) hkey, hold hvalue⟩

theorem newLoop (h : Copying made c) (id : LoopId) :
    Copying made ((CloneM.newLoop id).run c).2 := ⟨h.size, h.entries⟩

end Copying

/-- What is made of a piece is drawn from the storage, and agrees with the piece. -/
def Keeps (made : List Variable) (c : CloneState) (vs : List Var) (agrees : Prop) : Prop :=
  ∃ made', made <+: made' ∧ Copying made' c ∧ Drawn made' vs ∧ agrees

namespace Keeps

variable {made : List Variable} {c c' : CloneState} {vs ws : List Var} {p q : Prop}

theorem imp (h : Keeps made c vs p) (hpq : p → q) : Keeps made c vs q := by
  obtain ⟨made', hpre, hc, hvs, hp⟩ := h
  exact ⟨made', hpre, hc, hvs, hpq hp⟩

theorem refl (hc : Copying made c) (hvs : Drawn made vs) (hp : p) : Keeps made c vs p :=
  ⟨made, prefix_refl _, hc, hvs, hp⟩

theorem after {made' : List Variable} (h : Keeps made' c vs p) (hpre : made <+: made') :
    Keeps made c vs p := by
  obtain ⟨made'', hpre', hkeeps⟩ := h
  exact ⟨made'', hpre.trans hpre', hkeeps⟩

/-- The map of a copy may be forgotten once it is done. -/
theorem anew (h : Keeps made c vs p) : Keeps made ⟨c.storage, .empty⟩ vs p := by
  obtain ⟨made', hpre, hc, hkeeps⟩ := h
  exact ⟨made', hpre, .empty hc.size, hkeeps⟩

/-- Copying one part after the other keeps both. -/
theorem both (h : Keeps made c vs p)
    (h' : ∀ made', made <+: made' → Copying made' c → Keeps made' c' ws q) :
    Keeps made c' (vs ++ ws) (p ∧ q) := by
  obtain ⟨made', hpre, hc, hvs, hp⟩ := h
  obtain ⟨made'', hpre', hc', hws, hq⟩ := h' made' hpre hc
  exact ⟨made'', hpre.trans hpre', hc', drawn_append.mpr ⟨hvs.mono hpre', hws⟩, hp, hq⟩

/-- Copied parameters differ in their identities only. -/
theorem declareAll (params : List Var) (hc : Copying made c) (hparams : Drawn made params) :
    Keeps made ((CloneM.declareAll params).run c).2 ((CloneM.declareAll params).run c).1
      (((CloneM.declareAll params).run c).1.map Var.forget = params.map Var.forget) := by
  induction params generalizing made c with
  | nil => exact .refl hc nofun rfl
  | cons v rest ih =>
    obtain ⟨hv, hrest⟩ := forall_mem_cons.mp hparams
    obtain ⟨hfresh, hc'⟩ := hc.declare hv
    have hpre : made <+: made ++ [v.value] := prefix_append _ _
    obtain ⟨made', hpre', hc'', hothers, hsame⟩ := ih hc' (Drawn.mono hrest hpre)
    exact ⟨made', hpre.trans hpre', hc'', forall_mem_cons.mpr ⟨hfresh.mono hpre', hothers⟩,
      congrArg (Var.forget v :: ·) hsame⟩

end Keeps

section

variable {made : List Variable} {c : CloneState} (hc : Copying made c)

include hc

theorem Copying.forget_var {vs : List Var} (h : Drawn made vs) :
    ∀ v ∈ vs, Var.forget (c.renewed.var v) = Var.forget v :=
  fun v hv => congrArg (Numbered.mk 0) (hc.var (h v hv)).1

theorem Keeps.renewed {vs vs' : List Var} {p : Prop} (h : Drawn made vs)
    (hvs : vs' = vs.map c.renewed.var) (hp : p) : Keeps made c vs' p := by
  refine .refl hc (fun w hw => ?_) hp
  rw [hvs] at hw
  obtain ⟨v, hv, rfl⟩ := mem_map.mp hw
  exact (hc.var (h v hv)).2

/-- A copied value is the same apart from identities. -/
theorem Rvalue.keeps_clone {r : Rvalue} (h : Drawn made r.uses) :
    Keeps made c (r.clone c.renewed).uses
      ((r.clone c.renewed).rename Var.forget = r.rename Var.forget) := by
  refine .renewed hc h (r.usedIn_clone c.renewed 0) ?_
  rw [r.clone_eq]
  exact r.rename_rename_congr (hc.forget_var h)

end

/-- **A copy is the list again, up to the numbers of variables and loops.** -/
theorem Instruction.keeps_cloneAll (is : List Instruction) {made : List Variable} {c : CloneState}
    (hc : Copying made c) (h : Drawn made (varsAll is)) :
    Keeps made ((cloneAll is).run c).2
      (varsAll ((cloneAll is).run c).1)
      (forgetAll ((cloneAll is).run c).1 = forgetAll is) := by
  induction is using induction generalizing made c with
  | nil => exact .refl hc nofun rfl
  | append xs ys ih1 ih2 =>
    rw [varsAll_append] at h
    obtain ⟨hxs, hys⟩ := drawn_append.mp h
    rw [cloneAll_append, varsAll_append, forgetAll_append,
      forgetAll_append]
    refine ((ih1 hc hxs).both fun made' hpre hc' => ih2 hc' (hys.mono hpre)).imp ?_
    rintro ⟨h1, h2⟩
    rw [h1, h2]
  | leaf i hi =>
    cases i with
    | function | branch | loop => cases hi
    | declare v =>
      obtain ⟨hfresh, hc'⟩ := hc.declare (h v mem_cons_self)
      exact ⟨made ++ [v.value], prefix_append _ _, hc', forall_mem_singleton.mpr hfresh, rfl⟩
    | assign a =>
      refine .renewed hc h (a.usedIn_clone c.renewed 0) (congrArg (fun a => [assign a]) ?_)
      rw [a.clone_eq]
      exact a.rename_rename_congr (hc.forget_var h)
    | ret value =>
      refine .renewed hc h (Rvalue.usedIn_cloneOption c.renewed 0 value)
        (congrArg (fun r => [ret r]) ?_)
      rw [Rvalue.cloneOption_eq]
      exact Rvalue.renameOption_renameOption_congr value (hc.forget_var h)
    | jump => exact .refl hc nofun rfl
    | rvalue r => exact (r.keeps_clone hc h).imp (congrArg fun r => [rvalue r])
  | branch condition _ _ ih1 ih2 =>
    obtain ⟨hhead, helse⟩ := drawn_append.mp h
    obtain ⟨hcondition, hthen⟩ := drawn_append.mp hhead
    -- each part is copied with all that was made for the parts before it
    refine (((condition.keeps_clone hc hcondition).both fun made' hpre hc' =>
      ih1 hc' (hthen.mono hpre)).both fun made' hpre hc' => ih2 hc' (helse.mono hpre)).imp ?_
    rintro ⟨⟨h1, h2⟩, h3⟩
    exact congrArg (· :: []) ((branch.injEq ..).mpr ⟨h1, h2, h3⟩)
  | loop id controls _ ih =>
    obtain ⟨hcontrols, hbody⟩ := drawn_append.mp h
    have hnew := hc.newLoop id
    have hcopied : Keeps made _ (controls.clone _).uses _ :=
      .renewed hnew hcontrols (controls.usedIn_clone _ 0)
        ((congrArg (·.rename Var.forget) (controls.clone_eq _)).trans
          (controls.rename_rename_congr (hnew.forget_var hcontrols)))
    refine (hcopied.both fun made' hpre hc' => ih hc' (hbody.mono hpre)).imp ?_
    rintro ⟨h1, h2⟩
    exact congrArg (· :: []) ((loop.injEq ..).mpr ⟨rfl, h1, h2⟩)
  | function _ => exact .refl hc nofun rfl
  | overload _ _ parameters _ _ _ ih1 ih2 =>
    obtain ⟨hfirst, hothers⟩ := drawn_append.mp h
    obtain ⟨hparameters, hbody⟩ := drawn_append.mp hfirst
    refine (((Keeps.declareAll parameters hc hparameters).both fun made' hpre hc' =>
      ih1 hc' (hbody.mono hpre)).both fun made' hpre hc' => ih2 hc' (hothers.mono hpre)).imp ?_
    rintro ⟨⟨h1, h2⟩, h3⟩
    have hothers := (function.inj (cons.inj h3).1).2
    refine congrArg (fun ss => [function _ ss]) (cons_eq_cons.mpr ⟨?_, hothers⟩)
    exact (Signature.mk.injEq ..).mpr ⟨rfl, h1, h2, rfl⟩

end Shading
