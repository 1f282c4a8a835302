/-
  Shading.Proofs.Unroll.Expansion — unrolling computes the expansion of a list.

  The expansion of a list is defined from the inside out: a loop that is eligible becomes as many
  copies of its expanded body as its entry says, and everything else is built anew around the expanded
  lists that it holds.  It does not number anything, so unrolling is compared with it up to the numbers
  of variables and loops; what is not inside of an eligible loop keeps its numbers.
-/
import Shading.Proofs.Clone.Forget
import Shading.Proofs.Jump.Innermost
import Shading.Proofs.Unroll.Run

namespace Shading

open List Instruction

/-! ## §1. The expansion -/

/-- The loop runs a known number of times, at most as often as is allowed, and has no jumps. -/
def LoopInfo.Eligible (most : Nat) (info : LoopInfo) : Prop :=
  0 ≤ info.maxIterations ∧ info.maxIterations ≤ most ∧ info.jumps = 0

instance (most : Nat) (info : LoopInfo) : Decidable (info.Eligible most) :=
  inferInstanceAs (Decidable (_ ∧ _ ∧ _))

/-- The loop has an eligible entry. -/
def UnrollPlan.Eligible (plan : UnrollPlan) (id : LoopId) : Prop :=
  ∃ info ∈ plan.analysis.find? id, info.Eligible plan.most

mutual

/-- What an instruction expands to. -/
def Instruction.expand (plan : UnrollPlan) : Instruction → List Instruction
  | .loop id controls body =>
    let body := Instruction.expandAll plan body
    match plan.analysis.find? id with
    | some info =>
      if info.Eligible plan.most then (List.replicate info.maxIterations.toNat body).flatten
      else [.loop id controls body]
    | none => [.loop id controls body]
  | .branch condition thenBody elseBody =>
    [.branch condition (Instruction.expandAll plan thenBody) (Instruction.expandAll plan elseBody)]
  | .function name signatures => [.function name (Signature.expandAll plan signatures)]
  | i => [i]

/-- What a list of instructions expands to. -/
def Instruction.expandAll (plan : UnrollPlan) : List Instruction → List Instruction
  | [] => []
  | i :: rest => Instruction.expand plan i ++ Instruction.expandAll plan rest

/-- The overload with its body expanded. -/
def Signature.expand (plan : UnrollPlan) : Signature → Signature
  | ⟨returnType, parameters, body, isDefined⟩ =>
    ⟨returnType, parameters, Instruction.expandAll plan body, isDefined⟩

/-- The overloads with their bodies expanded. -/
def Signature.expandAll (plan : UnrollPlan) : List Signature → List Signature
  | [] => []
  | s :: rest => Signature.expand plan s :: Signature.expandAll plan rest

end

/-! ## §2. Expansion with copies -/

/-- The list expands to the other one.  What is outside of eligible loops keeps its variables and
    loops; an eligible loop is replaced by blocks that are its expanded body up to numbers. -/
inductive Expands (plan : UnrollPlan) : List Instruction → List Instruction → Prop
  | nil : Expands plan [] []
  | append {is is' js js' : List Instruction} (first : Expands plan is is') (rest : Expands plan js js') :
      Expands plan (is ++ js) (is' ++ js')
  | leaf {i : Instruction} (isLeaf : i.isLeaf = true) : Expands plan [i] [i]
  | branch {condition : Rvalue} {thenBody thenBody' elseBody elseBody' : List Instruction}
      (thenExpands : Expands plan thenBody thenBody') (elseExpands : Expands plan elseBody elseBody') :
      Expands plan [.branch condition thenBody elseBody] [.branch condition thenBody' elseBody']
  | function (name : String) : Expands plan [.function name []] [.function name []]
  | overload {name : String} {returnType : Ty} {parameters : List Var} {body body' : List Instruction}
      {isDefined : Bool} {ss ss' : List Signature} (bodyExpands : Expands plan body body')
      (rest : Expands plan [.function name ss] [.function name ss']) :
      Expands plan [.function name (⟨returnType, parameters, body, isDefined⟩ :: ss)]
        [.function name (⟨returnType, parameters, body', isDefined⟩ :: ss')]
  | kept {id : LoopId} {controls : Controls} {body body' : List Instruction}
      (ineligible : ¬ plan.Eligible id) (bodyExpands : Expands plan body body') :
      Expands plan [.loop id controls body] [.loop id controls body']
  | unrolled {id : LoopId} {controls : Controls} {body : List Instruction} {info : LoopInfo}
      {blocks : List (List Instruction)} (entry : plan.analysis.find? id = some info)
      (eligible : info.Eligible plan.most) (count : blocks.length = info.maxIterations.toNat)
      (copies : ∀ block ∈ blocks,
        forgetAll block = forgetAll (expandAll plan body)) :
      Expands plan [.loop id controls body] blocks.flatten

variable {body : List Instruction}

section

variable {plan : UnrollPlan}

theorem forgetAll_flatten {blocks : List (List Instruction)} {block : List Instruction}
    (h : ∀ b ∈ blocks, forgetAll b = forgetAll block) :
    forgetAll blocks.flatten
      = forgetAll (List.replicate blocks.length block).flatten := by
  induction blocks with
  | nil => rfl
  | cons b rest ih =>
    rw [flatten_cons, length_cons, replicate_succ, flatten_cons,
      forgetAll_append, forgetAll_append, h b mem_cons_self,
      ih fun b' hb' => h b' (mem_cons_of_mem _ hb')]

theorem Instruction.expandAll_append (xs ys : List Instruction) :
    expandAll plan (xs ++ ys)
      = expandAll plan xs ++ expandAll plan ys := by
  induction xs with
  | nil => rfl
  | cons i rest ih =>
    rw [cons_append, expandAll, expandAll, ih, append_assoc]

theorem Instruction.expandAll_of_eligible {id : LoopId} {controls : Controls} {info : LoopInfo}
    (entry : plan.analysis.find? id = some info) (eligible : info.Eligible plan.most) :
    expandAll plan [.loop id controls body]
      = (List.replicate info.maxIterations.toNat (expandAll plan body)).flatten := by
  rw [Instruction.expandAll, Instruction.expandAll, append_nil, Instruction.expand, entry]
  exact if_pos eligible

theorem Instruction.expandAll_of_not_eligible {id : LoopId} {controls : Controls}
    (h : ¬ plan.Eligible id) :
    expandAll plan [.loop id controls body]
      = [.loop id controls (expandAll plan body)] := by
  rw [Instruction.expandAll, Instruction.expandAll, append_nil, Instruction.expand]
  cases entry : plan.analysis.find? id with
  | none => rfl
  | some info => exact if_neg fun eligible => h ⟨info, entry, eligible⟩

/-- **What a list expands to is its expansion, up to the numbers of variables and loops.** -/
theorem Expands.forgetAll_eq {is is' : List Instruction} (h : Expands plan is is') :
    forgetAll is' = forgetAll (expandAll plan is) := by
  induction h with
  | nil | function => rfl
  | append first rest ih1 ih2 =>
    rw [expandAll_append, forgetAll_append, forgetAll_append, ih1,
      ih2]
  | @leaf i isLeaf =>
    cases i with
    | function | branch | loop => cases isLeaf
    | declare | assign | ret | jump | rvalue => rfl
  | branch thenExpands elseExpands ih1 ih2 =>
    exact congrArg (· :: []) ((Instruction.branch.injEq ..).mpr ⟨rfl, ih1, ih2⟩)
  | overload bodyExpands rest ih1 ih2 =>
    have hothers := (Instruction.function.inj (cons.inj ih2).1).2
    refine congrArg (fun ss => [Instruction.function _ ss]) (cons_eq_cons.mpr ⟨?_, hothers⟩)
    exact (Signature.mk.injEq ..).mpr ⟨rfl, rfl, ih1, rfl⟩
  | kept ineligible bodyExpands ih =>
    rw [expandAll_of_not_eligible ineligible]
    exact congrArg (· :: []) ((loop.injEq ..).mpr ⟨rfl, rfl, ih⟩)
  | unrolled entry eligible count copies =>
    rw [expandAll_of_eligible entry eligible, forgetAll_flatten copies, count]

end

/-! ## §3. Unrolling -/

section

variable {plan : UnrollPlan} {id : LoopId} {info : LoopInfo}

theorem UnrollPlan.copies?_eq (plan : UnrollPlan) (info : LoopInfo) :
    plan.copies? info
      = if info.Eligible plan.most then some info.maxIterations.toNat else none :=
  ite_congr (propext (and_congr_right fun _ => and_congr_left fun _ => Int.toNat_le)) (fun _ => rfl)
    fun _ => rfl

theorem UnrollPlan.eligible_of_copies {n : Nat} (h : plan.copies? info = some n) :
    info.Eligible plan.most ∧ n = info.maxIterations.toNat := by
  rw [UnrollPlan.copies?_eq, Option.ite_none_right_eq_some] at h
  exact ⟨h.1, (Option.some.inj h.2).symm⟩

theorem UnrollPlan.not_eligible (entry : plan.analysis.find? id = some info)
    (h : plan.copies? info = none) : ¬ plan.Eligible id := by
  rintro ⟨info', hinfo', heligible⟩
  cases Option.some.inj (entry.symm.trans hinfo')
  rw [UnrollPlan.copies?_eq, if_pos heligible] at h
  cases h

/-- What happens while the loops are dealt with: nothing if none of them is eligible, and `idle` says so
    of what is returned; otherwise at least a note is left. -/
def Stirs (plan : UnrollPlan) (s s' : UnrollState) (loops : List LoopId) (idle : Prop) : Prop :=
  ((∀ id ∈ loops, ¬ plan.Eligible id) ∧ s' = s ∧ idle)
    ∨ ((∃ id ∈ loops, plan.Eligible id) ∧ s.notes.length < s'.notes.length)

namespace Stirs

variable {s s1 s' : UnrollState} {loops loops' : List LoopId} {p q : Prop}

theorem imp (h : Stirs plan s s' loops p) (hpq : p → q) : Stirs plan s s' loops q :=
  h.imp_left fun h => ⟨h.1, h.2.1, hpq h.2.2⟩

theorem le (h : Stirs plan s s' loops p) : s.notes.length ≤ s'.notes.length := by
  rcases h with ⟨-, rfl, -⟩ | ⟨-, h⟩
  · exact Nat.le_refl _
  · exact Nat.le_of_lt h

/-- One eligible loop in either part is enough. -/
theorem trans (h : Stirs plan s s1 loops p) (h' : Stirs plan s1 s' loops' q) :
    Stirs plan s s' (loops ++ loops') (p ∧ q) := by
  have hle := h.le
  have hle' := h'.le
  rcases h with ⟨hnone, rfl, hp⟩ | ⟨⟨id, hid, heligible⟩, hlt⟩
  · rcases h' with ⟨hnone', rfl, hq⟩ | ⟨⟨id, hid, heligible⟩, hlt⟩
    · exact .inl ⟨forall_mem_append.mpr ⟨hnone, hnone'⟩, rfl, hp, hq⟩
    · exact .inr ⟨⟨id, mem_append_right _ hid, heligible⟩, by omega⟩
  · exact .inr ⟨⟨id, mem_append_left _ hid, heligible⟩, by omega⟩

end Stirs

/-- **Unrolling leaves a note for each loop that it replaces, and does nothing if there is none.** -/
theorem UnrollRun.stirs {is is' : List Instruction} {s s' : UnrollState}
    (h : UnrollRun plan is s is' s') : Stirs plan s s' (loopsAll is) (is' = is) := by
  induction h with
  | nil | function => exact .inl ⟨nofun, rfl, rfl⟩
  | append first rest ih1 ih2 =>
    rw [loopsAll_append]
    refine (ih1.trans ih2).imp ?_
    rintro ⟨rfl, rfl⟩
    rfl
  | leaf isLeaf s =>
    rw [loopsAll_of_isLeaf isLeaf]
    exact .inl ⟨nofun, rfl, rfl⟩
  | branch thenRun elseRun ih1 ih2 =>
    refine (ih1.trans ih2).imp ?_
    rintro ⟨rfl, rfl⟩
    rfl
  | overload bodyRun rest ih1 ih2 =>
    refine (ih1.trans ih2).imp ?_
    rintro ⟨rfl, hothers⟩
    rw [(function.inj (cons.inj hothers).1).2]
  | @kept _ _ _ _ _ s _ entry count bodyRun ih =>
    have hloop : Stirs plan s s [_] True := .inl
      ⟨forall_mem_singleton.mpr (UnrollPlan.not_eligible entry count), rfl, trivial⟩
    refine (hloop.trans ih).imp ?_
    rintro ⟨-, rfl⟩
    rfl
  | replaced entry count bodyRun copies ih =>
    exact .inr ⟨⟨_, mem_cons_self, _, entry, (UnrollPlan.eligible_of_copies count).1⟩,
      Nat.lt_of_le_of_lt ih.le (Nat.lt_succ_self _)⟩

/-- The copies keep the variables of the body. -/
theorem CopyRun.keeps {t t' : Storage} {blocks : List (List Instruction)}
    (h : CopyRun body t blocks t') {made : List Variable} (hc : Copying made ⟨t, .empty⟩)
    (hbody : Drawn made (varsAll body)) :
    Keeps made ⟨t', .empty⟩ (varsAll blocks.flatten)
      (∀ block ∈ blocks, forgetAll block = forgetAll body) := by
  induction h generalizing made with
  | done t => exact .refl hc nofun nofun
  | copy rest ih =>
    rw [flatten_cons, varsAll_append]
    refine ((keeps_cloneAll body hc hbody).anew.both fun made' hpre hc' =>
      ih hc' (hbody.mono hpre)).imp ?_
    rintro ⟨hfirst, hothers⟩
    exact forall_mem_cons.mpr ⟨hfirst, hothers⟩

/-- **What unrolling makes of a list is drawn from the storage, and the list expands to it.** -/
theorem UnrollRun.keeps {is is' : List Instruction} {s s' : UnrollState}
    (h : UnrollRun plan is s is' s') {made : List Variable} (hc : Copying made ⟨s.storage, .empty⟩)
    (hmade : Drawn made (varsAll is)) :
    Keeps made ⟨s'.storage, .empty⟩ (varsAll is') (Expands plan is is') := by
  induction h generalizing made with
  | nil => exact .refl hc nofun .nil
  | append first rest ih1 ih2 =>
    rw [varsAll_append] at hmade
    obtain ⟨hfirst, hrest⟩ := drawn_append.mp hmade
    rw [varsAll_append]
    refine ((ih1 hc hfirst).both fun made' hpre hc' => ih2 hc' (hrest.mono hpre)).imp ?_
    rintro ⟨h1, h2⟩
    exact .append h1 h2
  | leaf isLeaf s => exact .refl hc hmade (.leaf isLeaf)
  | branch thenRun elseRun ih1 ih2 =>
    obtain ⟨hhead, helse⟩ := drawn_append.mp hmade
    obtain ⟨hcondition, hthen⟩ := drawn_append.mp hhead
    -- each block goes on from what the one before it has made
    refine (((Keeps.refl hc hcondition trivial).both fun made' hpre hc' =>
      ih1 hc' (hthen.mono hpre)).both fun made' hpre hc' => ih2 hc' (helse.mono hpre)).imp ?_
    rintro ⟨⟨-, h1⟩, h2⟩
    exact .branch h1 h2
  | function name s => exact .refl hc nofun (.function name)
  | overload bodyRun rest ih1 ih2 =>
    obtain ⟨hfirst, hothers⟩ := drawn_append.mp hmade
    obtain ⟨hparameters, hbody⟩ := drawn_append.mp hfirst
    refine (((Keeps.refl hc hparameters trivial).both fun made' hpre hc' =>
      ih1 hc' (hbody.mono hpre)).both fun made' hpre hc' => ih2 hc' (hothers.mono hpre)).imp ?_
    rintro ⟨⟨-, h1⟩, h2⟩
    exact .overload h1 h2
  | kept entry count bodyRun ih =>
    obtain ⟨hcontrols, hbody⟩ := drawn_append.mp hmade
    refine ((Keeps.refl hc hcontrols trivial).both fun made' hpre hc' =>
      ih hc' (hbody.mono hpre)).imp ?_
    rintro ⟨-, h1⟩
    exact .kept (UnrollPlan.not_eligible entry count) h1
  | replaced entry count bodyRun copies ih =>
    obtain ⟨made1, hpre1, hc1, hdrawn, hexpands⟩ := ih hc (drawn_append.mp hmade).2
    obtain ⟨heligible, hcount⟩ := UnrollPlan.eligible_of_copies count
    refine ((copies.keeps hc1 hdrawn).after hpre1).imp fun hsame => ?_
    exact .unrolled entry heligible hcount fun block hblock =>
      (hsame block hblock).trans hexpands.forgetAll_eq

end

/-! ## §4. Modules -/

/-- **Unrolling computes the expansion.**  Let the storage have made the variables of a module and let
    every loop of it have an entry.  Then unrolling succeeds; the result is the expansion of the module
    up to the numbers of variables and loops, and what is not inside of an eligible loop keeps its
    numbers; the flag tells whether some loop is eligible; and if none is, nothing has happened. -/
theorem unrollLoops_expands (plan : UnrollPlan) (s : Storage) (made : List Variable)
    (ir : List Instruction) (hsize : made.length = s.vars.issued) (hmade : Drawn made (Instruction.varsAll ir))
    (hentries : ∀ id ∈ loopIds ir, (plan.analysis.find? id).isSome) :
    let result := unrollLoops plan s ir
    ∃ out, result.outcome = .ok out
      ∧ Instruction.forgetAll out = Instruction.forgetAll (Instruction.expandAll plan ir)
      ∧ Expands plan ir out
      ∧ (result.changed = true ↔ ∃ id ∈ loopIds ir, plan.Eligible id)
      ∧ (result.changed = false → out = ir ∧ result.storage = s) := by
  obtain ⟨out, s', hresult, hrun⟩ := exists_unrollRun (s := s) hentries
  obtain ⟨made', -, -, -, hexpands⟩ := hrun.keeps (.empty hsize) hmade
  have hchanged : (unrollLoops plan s ir).changed = true ↔ 0 < s'.notes.length := by
    rw [hresult, Bool.not_eq_true', isEmpty_eq_false_iff, length_pos_iff]
  refine ⟨out, by rw [hresult], hexpands.forgetAll_eq, hexpands, ?_, fun hidle => ?_⟩
  · rw [hchanged, loopIds_eq]
    rcases hrun.stirs with ⟨hnone, rfl, -⟩ | ⟨hsome, hnotes⟩
    · exact ⟨nofun, fun ⟨id, hid, h⟩ => absurd h (hnone id hid)⟩
    · exact ⟨fun _ => hsome, fun _ => hnotes⟩
  · rw [← Bool.not_eq_true, hchanged] at hidle
    rcases hrun.stirs with ⟨-, rfl, hsame⟩ | ⟨-, hnotes⟩
    · rw [hresult]
      exact ⟨hsame, rfl⟩
    · exact absurd hnotes hidle

/-- Loops in loops: the outer one and one of the inner ones are eligible, the other inner one has a
    jump. -/
def nestedLoops : List Instruction :=
  let x : Var := ⟨0, { name := "x", ty := .scalar .int }⟩
  let t : Var := ⟨1, { name := "t", ty := .scalar .int, mode := .temporary }⟩
  [.declare x,
    .loop ⟨0⟩ {} [
      .loop ⟨1⟩ {} [.declare t, .assign (.whole (.var t) (.dereference (.var x)) none)],
      .branch (.dereference (.var x)) [.loop ⟨2⟩ {} [.jump .break ⟨2⟩]] []]]

/-- Two rounds of three, and a loop that stays. -/
def nestedPlan : UnrollPlan := ⟨⟨[(⟨0⟩, ⟨2, 0⟩), (⟨1⟩, ⟨3, 0⟩), (⟨2⟩, ⟨1, 1⟩)]⟩, 32⟩

theorem unrollLoops_expands_nestedLoops :
    ∃ out, (unrollLoops nestedPlan ⟨⟨2⟩, ⟨3⟩, ⟨0⟩⟩ nestedLoops).outcome = .ok out
      ∧ Instruction.forgetAll out
        = Instruction.forgetAll (Instruction.expandAll nestedPlan nestedLoops)
      ∧ (unrollLoops nestedPlan ⟨⟨2⟩, ⟨3⟩, ⟨0⟩⟩ nestedLoops).changed = true := by
  have hmade : Drawn [{ name := "x", ty := .scalar .int },
      { name := "t", ty := .scalar .int, mode := .temporary }] (Instruction.varsAll nestedLoops) := by
    decide +kernel
  obtain ⟨out, hout, hforget, -, hchanged, -⟩ := unrollLoops_expands nestedPlan ⟨⟨2⟩, ⟨3⟩, ⟨0⟩⟩ _
    nestedLoops rfl hmade (by decide +kernel)
  exact ⟨out, hout, hforget, hchanged.mpr ⟨⟨0⟩, by decide +kernel, ⟨2, 0⟩, rfl, by decide⟩⟩

end Shading
