/-
  Shading.Proofs.Unroll.Run — what unrolling does, step by step.

  A list is dealt with from the first instruction to the last.  A loop comes after its body, and is
  then replaced by copies of what has become of the body, or stays around it.  `UnrollRun` records
  this together with the states in between; what unrolling keeps is shown along such a record.
-/
import Shading.Proofs.Walk
import Shading.Unroll

namespace Shading

open List Instruction

/-! ## §1. Runs -/

/-- The computation succeeds in the state `s` with `a` and leaves the state `s'`. -/
def UnrollM.Yields {α : Type} (x : UnrollM α) (s : UnrollState) (a : α) (s' : UnrollState) : Prop :=
  x.run.run s = (.ok a, s')

namespace UnrollM.Yields

variable {α β : Type} {s s' s'' : UnrollState} {a : α} {b : β}

theorem pure (s : UnrollState) (a : α) : Yields (Pure.pure a) s a s := rfl

theorem bind {x : UnrollM α} {f : α → UnrollM β} (h : x.Yields s a s') (h' : (f a).Yields s' b s'') :
    (x >>= f).Yields s b s'' := by
  show (ExceptT.bindCont f (x.run.run s).1) (x.run.run s).2 = _
  rw [show x.run.run s = (.ok a, s') from h]
  exact h'

end UnrollM.Yields

theorem unrollLoops_of_yields {plan : UnrollPlan} {s : Storage} {ir out : List Instruction}
    {changed : Bool} {s' : UnrollState}
    (h : (unrollAll plan ir).Yields ⟨s, []⟩ (out, changed) s') :
    unrollLoops plan s ir = ⟨.ok out, changed, s'.storage, s'.notes.reverse⟩ := by
  unfold unrollLoops
  rw [show (unrollAll plan ir).run.run ⟨s, []⟩ = (.ok (out, changed), s') from h]

/-- The flag says whether notes were left between the states. -/
structure Flags (s : UnrollState) (flag : Bool) (s' : UnrollState) : Prop where
  le : s.notes.length ≤ s'.notes.length
  lt_iff : s.notes.length < s'.notes.length ↔ flag = true

theorem Flags.refl (s : UnrollState) : Flags s false s := ⟨Nat.le_refl _, by simp⟩

theorem Flags.trans {s s1 s' : UnrollState} {p q : Bool} (h : Flags s p s1) (h' : Flags s1 q s') :
    Flags s (p || q) s' := by
  refine ⟨Nat.le_trans h.le h'.le, ?_⟩
  have hle := h.le
  have hle' := h'.le
  rw [Bool.or_eq_true, ← h.lt_iff, ← h'.lt_iff]
  omega

/-- The blocks are copies of the body, each made from the storage that the one before it left. -/
inductive CopyRun (body : List Instruction) : Storage → List (List Instruction) → Storage → Prop
  | done (t : Storage) : CopyRun body t [] t
  | copy {t t' : Storage} {blocks : List (List Instruction)}
      (rest : CopyRun body ((cloneAll body).run ⟨t, .empty⟩).2.storage blocks t') :
      CopyRun body t (((cloneAll body).run ⟨t, .empty⟩).1 :: blocks) t'

theorem CopyRun.replicate_nil (t : Storage) : ∀ n, CopyRun [] t (List.replicate n []) t
  | 0 => .done t
  | n + 1 => .copy (CopyRun.replicate_nil t n)

theorem UnrollM.yields_repeated (body : List Instruction) (n : Nat) (s : UnrollState) :
    ∃ blocks t, (UnrollM.repeated body n).Yields s blocks.flatten { s with storage := t }
      ∧ blocks.length = n ∧ CopyRun body s.storage blocks t := by
  induction n generalizing s with
  | zero => exact ⟨[], s.storage, rfl, rfl, .done _⟩
  | succ n ih =>
    let first := (cloneAll body).run ⟨s.storage, .empty⟩
    let s1 : UnrollState := { s with storage := first.2.storage }
    have hfirst : (UnrollM.copy body).Yields s first.1 s1 := rfl
    obtain ⟨blocks, t, hyields, hlength, hrun⟩ := ih s1
    exact ⟨first.1 :: blocks, t, hfirst.bind (hyields.bind (.pure _ _)),
      congrArg (· + 1) hlength, .copy hrun⟩

theorem UnrollM.yields_copies (body : List Instruction) (n : Nat) (s : UnrollState) :
    ∃ blocks t, (UnrollM.copies body n).Yields s blocks.flatten { s with storage := t }
      ∧ blocks.length = n ∧ CopyRun body s.storage blocks t := by
  cases body with
  | nil =>
    refine ⟨List.replicate n [], s.storage, ?_, length_replicate, .replicate_nil _ n⟩
    rw [flatten_replicate_nil]
    exact .pure s []
  | cons i rest => exact UnrollM.yields_repeated (i :: rest) n s

/-! ## §2. Records -/

/-- Unrolling takes the list and the state to the other list and the other state. -/
inductive UnrollRun (plan : UnrollPlan) :
    List Instruction → UnrollState → List Instruction → UnrollState → Prop
  | nil (s : UnrollState) : UnrollRun plan [] s [] s
  | append {is is' js js' : List Instruction} {s s1 s' : UnrollState}
      (first : UnrollRun plan is s is' s1) (rest : UnrollRun plan js s1 js' s') :
      UnrollRun plan (is ++ js) s (is' ++ js') s'
  | leaf {i : Instruction} (isLeaf : i.isLeaf = true) (s : UnrollState) : UnrollRun plan [i] s [i] s
  | branch {condition : Rvalue} {thenBody thenBody' elseBody elseBody' : List Instruction}
      {s s1 s' : UnrollState} (thenRun : UnrollRun plan thenBody s thenBody' s1)
      (elseRun : UnrollRun plan elseBody s1 elseBody' s') :
      UnrollRun plan [.branch condition thenBody elseBody] s
        [.branch condition thenBody' elseBody'] s'
  | function (name : String) (s : UnrollState) :
      UnrollRun plan [.function name []] s [.function name []] s
  | overload {name : String} {returnType : Ty} {parameters : List Var} {body body' : List Instruction}
      {isDefined : Bool} {sigs sigs' : List Signature} {s s1 s' : UnrollState}
      (bodyRun : UnrollRun plan body s body' s1)
      (rest : UnrollRun plan [.function name sigs] s1 [.function name sigs'] s') :
      UnrollRun plan [.function name (⟨returnType, parameters, body, isDefined⟩ :: sigs)] s
        [.function name (⟨returnType, parameters, body', isDefined⟩ :: sigs')] s'
  | kept {id : LoopId} {controls : Controls} {info : LoopInfo} {body body' : List Instruction}
      {s s' : UnrollState} (entry : plan.analysis.find? id = some info)
      (count : plan.copies? info = none) (bodyRun : UnrollRun plan body s body' s') :
      UnrollRun plan [.loop id controls body] s [.loop id controls body'] s'
  | replaced {id : LoopId} {controls : Controls} {info : LoopInfo} {body body' : List Instruction}
      {blocks : List (List Instruction)} {s s1 : UnrollState} {t : Storage}
      (entry : plan.analysis.find? id = some info) (count : plan.copies? info = some blocks.length)
      (bodyRun : UnrollRun plan body s body' s1) (copies : CopyRun body' s1.storage blocks t) :
      UnrollRun plan [.loop id controls body] s blocks.flatten ⟨t, ⟨id, blocks.length⟩ :: s1.notes⟩

section

variable {plan : UnrollPlan}

/-- What unrolling makes of a list has a record, and the flag says whether a note was left. -/
def Unrolls (plan : UnrollPlan) (is : List Instruction) (s : UnrollState)
    (x : UnrollM (List Instruction × Bool)) : Prop :=
  ∃ is' flag s', x.Yields s (is', flag) s' ∧ Flags s flag s' ∧ UnrollRun plan is s is' s'

theorem unrolls_leaf {i : Instruction} (h : i.isLeaf = true) (s : UnrollState) :
    Unrolls plan [i] s (pure ([i], false)) :=
  ⟨[i], false, s, .pure s _, .refl s, .leaf h s⟩

/-- One loop is unrolled or kept, by what the analysis says. -/
theorem unrolls_loop {id : LoopId} {controls : Controls} {body body' : List Instruction} {inner : Bool}
    {s s1 : UnrollState} (hid : (plan.analysis.find? id).isSome)
    (hyields : (unrollAll plan body).Yields s (body', inner) s1) (hflags : Flags s inner s1)
    (hbody : UnrollRun plan body s body' s1) :
    Unrolls plan [.loop id controls body] s ((loop id controls body).unroll plan) := by
  obtain ⟨info, entry⟩ := Option.isSome_iff_exists.mp hid
  cases count : plan.copies? info with
  | none =>
    have hreplace : (UnrollM.replace plan id controls body').Yields s1
        ([.loop id controls body'], false) s1 := by
      simp only [UnrollM.replace, entry, count]
      exact .pure s1 _
    exact ⟨_, _, s1, hyields.bind (hreplace.bind (.pure _ _)), hflags.trans (.refl s1),
      .kept entry count hbody⟩
  | some n =>
    -- the note comes before the copies
    let noted : UnrollState := { s1 with notes := ⟨id, n⟩ :: s1.notes }
    have hnoted : UnrollM.Yields (modify fun s => { s with notes := ⟨id, n⟩ :: s.notes }) s1 ()
      noted := rfl
    obtain ⟨blocks, t, hcopies, rfl, hrun⟩ := UnrollM.yields_copies body' n noted
    have hreplace : (UnrollM.replace plan id controls body').Yields s1 (blocks.flatten, true)
        ⟨t, ⟨id, blocks.length⟩ :: s1.notes⟩ := by
      simp only [UnrollM.replace, entry, count]
      exact hnoted.bind (hcopies.bind (.pure _ _))
    have hflag : Flags s1 true ⟨t, ⟨id, blocks.length⟩ :: s1.notes⟩ :=
      ⟨Nat.le_succ _, iff_of_true (Nat.lt_succ_self _) rfl⟩
    exact ⟨_, _, _, hyields.bind (hreplace.bind (.pure _ _)), hflags.trans hflag,
      .replaced entry count hbody hrun⟩

mutual

theorem Instruction.unrolls_unroll :
    ∀ (i : Instruction) (s : UnrollState),
      (∀ id ∈ loopsAll [i], (plan.analysis.find? id).isSome) →
      Unrolls plan [i] s (i.unroll plan)
  | .declare _, s, _ => unrolls_leaf rfl s
  | .function name signatures, s, hentries => by
    obtain ⟨sigs', p, s1, hyields, hflags, hrun⟩ :=
      Signature.unrolls_unrollAll name signatures s hentries
    exact ⟨[.function name sigs'], p, s1, hyields.bind (.pure _ _), hflags, hrun⟩
  | .assign _, s, _ => unrolls_leaf rfl s
  | .ret _, s, _ => unrolls_leaf rfl s
  | .branch condition thenBody elseBody, s, hentries => by
    obtain ⟨hthen, helse⟩ := forall_mem_append.mp hentries
    obtain ⟨is1, p, s1, hyields1, hflags1, hrun1⟩ := Instruction.unrolls_unrollAll thenBody s hthen
    obtain ⟨is2, q, s2, hyields2, hflags2, hrun2⟩ := Instruction.unrolls_unrollAll elseBody s1 helse
    exact ⟨[.branch condition is1 is2], p || q, s2, hyields1.bind (hyields2.bind (.pure _ _)),
      hflags1.trans hflags2, .branch hrun1 hrun2⟩
  | .loop id controls body, s, hentries => by
    obtain ⟨hid, hbody⟩ := forall_mem_cons.mp hentries
    obtain ⟨body', p, s1, hyields, hflags, hrun⟩ := Instruction.unrolls_unrollAll body s hbody
    exact unrolls_loop hid hyields hflags hrun
  | .jump _ _, s, _ => unrolls_leaf rfl s
  | .rvalue _, s, _ => unrolls_leaf rfl s

/-- **Unrolling succeeds with a record**, if the loops have entries. -/
theorem Instruction.unrolls_unrollAll :
    ∀ (is : List Instruction) (s : UnrollState),
      (∀ id ∈ loopsAll is, (plan.analysis.find? id).isSome) →
      Unrolls plan is s (unrollAll plan is)
  | [], s, _ => ⟨[], false, s, .pure s _, .refl s, .nil s⟩
  | i :: rest, s, hentries => by
    rw [show i :: rest = [i] ++ rest from rfl, loopsAll_append] at hentries
    obtain ⟨hi, hrest⟩ := forall_mem_append.mp hentries
    obtain ⟨first, p, s1, hyields1, hflags1, hrun1⟩ := Instruction.unrolls_unroll i s hi
    obtain ⟨others, q, s2, hyields2, hflags2, hrun2⟩ := Instruction.unrolls_unrollAll rest s1 hrest
    exact ⟨first ++ others, p || q, s2, hyields1.bind (hyields2.bind (.pure _ _)),
      hflags1.trans hflags2, .append hrun1 hrun2⟩

theorem Signature.unrolls_unrollAll (name : String) :
    ∀ (sigs : List Signature) (s : UnrollState),
      (∀ id ∈ loopsAll [.function name sigs], (plan.analysis.find? id).isSome) →
      ∃ sigs' flag s', (Signature.unrollAll plan sigs).Yields s (sigs', flag) s' ∧ Flags s flag s'
        ∧ UnrollRun plan [.function name sigs] s [.function name sigs'] s'
  | [], s, _ => ⟨[], false, s, .pure s _, .refl s, .function name s⟩
  | ⟨returnType, parameters, body, isDefined⟩ :: rest, s, hentries => by
    obtain ⟨hbody, hrest⟩ := forall_mem_append.mp hentries
    obtain ⟨body', p, s1, hyields1, hflags1, hrun1⟩ := Instruction.unrolls_unrollAll body s hbody
    obtain ⟨sigs', q, s2, hyields2, hflags2, hrun2⟩ := Signature.unrolls_unrollAll name rest s1 hrest
    have hyields : (Signature.unroll plan ⟨returnType, parameters, body, isDefined⟩).Yields s
        (⟨returnType, parameters, body', isDefined⟩, p) s1 := hyields1.bind (.pure _ _)
    exact ⟨_, p || q, s2, hyields.bind (hyields2.bind (.pure _ _)), hflags1.trans hflags2,
      .overload hrun1 hrun2⟩

end

/-- **The flag says whether a loop was noted**, and the rest of the result is what the record says. -/
theorem exists_unrollRun {s : Storage} {ir : List Instruction}
    (hentries : ∀ id ∈ loopIds ir, (plan.analysis.find? id).isSome) :
    ∃ out s', unrollLoops plan s ir = ⟨.ok out, !s'.notes.isEmpty, s'.storage, s'.notes.reverse⟩
      ∧ UnrollRun plan ir ⟨s, []⟩ out s' := by
  rw [loopIds_eq] at hentries
  obtain ⟨out, flag, s', hyields, hflags, hrun⟩ :=
    unrolls_unrollAll ir ⟨s, []⟩ hentries
  refine ⟨out, s', ?_, hrun⟩
  have hflag : flag = !s'.notes.isEmpty := by
    rw [Bool.eq_iff_iff, ← hflags.lt_iff, Bool.not_eq_true', isEmpty_eq_false_iff, ← length_pos_iff]
    rfl
  rw [unrollLoops_of_yields hyields, hflag]

end

end Shading
