/-
  Shading.Proofs.Jump.Unroll — unrolling keeps jumps correct.

  A loop that is replaced by copies of its body takes its identity with it.  No jump is left behind as
  long as the analysis counts a jump for every loop that one goes to: such a loop stays.  The bodies
  that are copied have jumps to inner loops only, which are renewed together with the jumps.
-/
import Shading.Proofs.Jump.Innermost
import Shading.Proofs.Unroll.Expansion

namespace Shading

open List Instruction

/-! ## §1. Numbers of loops -/

instance (s : Storage) (id : LoopId) : Decidable (s.Has (.loop id)) :=
  inferInstanceAs (Decidable (id.number < s.loops.issued))

/-- On the way from one storage to the other, the loops of a piece become those of another piece.
    They differ, and each of them is an old one or new. -/
structure Numbers (s s' : Storage) (old new : List LoopId) : Prop where
  grows : ∀ id, s.Has (.loop id) → s'.Has (.loop id)
  nodup : new.Nodup
  known : ∀ id ∈ new, id ∈ old ∨ ¬ s.Has (.loop id)
  issued : ∀ id ∈ new, s'.Has (.loop id)

namespace Numbers

variable {s s1 s2 : Storage} {old new old' new' : List LoopId}

theorem refl (hnodup : old.Nodup) (hissued : ∀ id ∈ old, s.Has (.loop id)) : Numbers s s old old :=
  ⟨fun _ h => h, hnodup, fun _ => .inl, hissued⟩

theorem nil (s : Storage) : Numbers s s [] [] :=
  refl nodup_nil fun _ hid => absurd hid not_mem_nil

/-- Numbers of two parts are apart: what the second one issues is newer. -/
theorem append (h : Numbers s s1 old new) (h' : Numbers s1 s2 old' new')
    (hnodup : (old ++ old').Nodup) (hissued : ∀ id ∈ old', s.Has (.loop id)) :
    Numbers s s2 (old ++ old') (new ++ new') where
  grows := fun id hid => h'.grows id (h.grows id hid)
  nodup := by
    refine nodup_append.mpr ⟨h.nodup, h'.nodup, ?_⟩
    intro id hid id' hid' heq
    subst heq
    -- a loop of the second piece that the first one has is an old one, and so it is in the first
    have hold' := (h'.known id hid').resolve_right fun hnot => hnot (h.issued id hid)
    have hold := (h.known id hid).resolve_right fun hnot => hnot (hissued id hold')
    exact (nodup_append.mp hnodup).2.2 id hold id hold' rfl
  known := fun id hid => by
    rcases mem_append.mp hid with hid | hid
    · exact (h.known id hid).imp_left (mem_append_left _)
    · exact (h'.known id hid).imp (mem_append_right _) fun hnot hs => hnot (h.grows id hs)
  issued := fun id hid => by
    rcases mem_append.mp hid with hid | hid
    · exact h'.grows id (h.issued id hid)
    · exact h'.issued id hid

theorem append_nil (h : Numbers s s1 [] new) (h' : Numbers s1 s2 [] new') :
    Numbers s s2 [] (new ++ new') :=
  h.append h' nodup_nil fun _ hid => absurd hid not_mem_nil

theorem of_new (h : Numbers s1 s2 [] new) (hgrows : ∀ id, s.Has (.loop id) → s1.Has (.loop id))
    (old : List LoopId) : Numbers s s2 old new where
  grows := fun id hid => h.grows id (hgrows id hid)
  nodup := h.nodup
  known := fun id hid =>
    .inr fun hs => (h.known id hid).elim not_mem_nil fun hnot => hnot (hgrows id hs)
  issued := h.issued

end Numbers

/-- A copy has loops of its own, all of them new. -/
theorem Instruction.numbers_cloneAll (s : CloneState) (is : List Instruction) :
    Numbers s.storage ((cloneAll is).run s).2.storage []
      (loopsAll ((cloneAll is).run s).1) := by
  have h := renews_cloneAll s is
  refine ⟨fun id hid => h.grows (.loop id) hid, ?_, fun id hid => .inr ?_, fun id hid => ?_⟩
  · rw [loopsAll_eq]
    refine List.Pairwise.filterMap Identity.loop?
      (fun a a' hne id hid id' hid' heq => hne ?_) h.nodup
    cases a <;> cases hid
    cases a' <;> cases hid'
    rw [heq]
  · exact h.fresh (.loop id) (mem_loopsAll.mp hid)
  · exact h.issued (.loop id) (mem_loopsAll.mp hid)

variable {body : List Instruction}

/-- The copies of a body jump within themselves. -/
theorem CopyRun.jumps {t t' : Storage} {blocks : List (List Instruction)}
    (h : CopyRun body t blocks t') (hcorrect : JumpCorrectIn none body)
    (hnodup : (loopsAll body).Nodup) :
    Numbers t t' [] (loopsAll blocks.flatten) ∧ JumpCorrectIn none blocks.flatten := by
  induction h with
  | done t => exact ⟨.nil t, nofun⟩
  | @copy t t' blocks rest ih =>
    obtain ⟨hnumbers, hblocks⟩ := ih
    have hfirst := jumpCorrectIn_cloneAll body none ⟨t, .empty⟩ hcorrect hnodup
      fun _ hid => by cases hid
    rw [flatten_cons, loopsAll_append]
    exact ⟨(numbers_cloneAll ⟨t, .empty⟩ body).append_nil hnumbers,
      jumpCorrectIn_append.mpr ⟨hfirst, hblocks⟩⟩

/-! ## §2. Unrolling -/

/-- The analysis counts a jump for the loop, if it has an entry for it. -/
def UnrollPlan.Counts (plan : UnrollPlan) (id : LoopId) : Prop :=
  ∀ info ∈ plan.analysis.find? id, info.jumps ≠ 0

instance (plan : UnrollPlan) (id : LoopId) : Decidable (plan.Counts id) :=
  inferInstanceAs (Decidable (∀ info ∈ plan.analysis.find? id, info.jumps ≠ 0))

/-- What unrolling expects of a piece: its loops differ and come from the storage, and its jumps are
    correct and go to loops for which a jump is counted. -/
structure Unrollable (plan : UnrollPlan) (s : Storage) (loops : List LoopId) (jumps : List JumpSite) :
    Prop where
  nodup : loops.Nodup
  issued : ∀ id ∈ loops, s.Has (.loop id)
  innermost : ∀ j ∈ jumps, j.Innermost
  counted : ∀ j ∈ jumps, plan.Counts j.target

section

variable {plan : UnrollPlan}

namespace Unrollable

variable {s s' : Storage} {loops loops' : List LoopId} {jumps jumps' : List JumpSite}

theorem left (h : Unrollable plan s (loops ++ loops') (jumps ++ jumps')) :
    Unrollable plan s loops jumps where
  nodup := (nodup_append.mp h.nodup).1
  issued := fun id hid => h.issued id (mem_append_left _ hid)
  innermost := fun j hj => h.innermost j (mem_append_left _ hj)
  counted := fun j hj => h.counted j (mem_append_left _ hj)

theorem right (h : Unrollable plan s (loops ++ loops') (jumps ++ jumps')) :
    Unrollable plan s loops' jumps' where
  nodup := (nodup_append.mp h.nodup).2.1
  issued := fun id hid => h.issued id (mem_append_right _ hid)
  innermost := fun j hj => h.innermost j (mem_append_right _ hj)
  counted := fun j hj => h.counted j (mem_append_right _ hj)

theorem later (h : Unrollable plan s loops jumps)
    (hgrows : ∀ id, s.Has (.loop id) → s'.Has (.loop id)) : Unrollable plan s' loops jumps :=
  { h with issued := fun id hid => hgrows id (h.issued id hid) }

theorem numbers_append (h : Unrollable plan s (loops ++ loops') jumps) {s1 s2 : Storage}
    {new new' : List LoopId} (h1 : Numbers s s1 loops new) (h2 : Numbers s1 s2 loops' new') :
    Numbers s s2 (loops ++ loops') (new ++ new') :=
  h1.append h2 h.nodup fun id hid => h.issued id (mem_append_right _ hid)

theorem numbers_loop {id : LoopId} (h : Unrollable plan s (id :: loops) jumps) {s1 : Storage}
    {new : List LoopId} (h1 : Numbers s s1 loops new) : Numbers s s1 (id :: loops) (id :: new) :=
  @numbers_append plan s [id] loops jumps h s s1 [id] new
    (.refl (pairwise_singleton _ _) fun _ hid => mem_singleton.mp hid ▸ h.issued id mem_cons_self) h1

theorem inside {id : LoopId} (h : Unrollable plan s (id :: loops) jumps) :
    Unrollable plan s loops jumps :=
  @right plan s [id] loops [] jumps h

/-- Without a jump to the loop, its body may stand outside of it. -/
theorem body_of_not_counts {id : LoopId}
    (h : Unrollable plan s (id :: loops) (jumpsAll (some id) body))
    (hnot : ¬ plan.Counts id) : Unrollable plan s loops (jumpsAll none body) := by
  have houtside : ∀ j ∈ jumpsAll (some id) body, j.enclosing ≠ some id := by
    intro j hj heq
    have htarget : j.target = id := Option.some.inj ((h.innermost j hj).symm.trans heq)
    exact hnot (htarget ▸ h.counted j hj)
  rw [jumpsAll_enclosing body houtside]
  exact h.inside

end Unrollable

/-- **Unrolling keeps jumps correct.** -/
theorem UnrollRun.jumps {is is' : List Instruction} {s s' : UnrollState}
    (h : UnrollRun plan is s is' s') {enclosing : Option LoopId}
    (hok : Unrollable plan s.storage (loopsAll is) (jumpsAll enclosing is)) :
    JumpCorrectIn enclosing is' ∧ Numbers s.storage s'.storage (loopsAll is)
      (loopsAll is') := by
  induction h generalizing enclosing with
  | nil s | function _ s => exact ⟨nofun, .nil s.storage⟩
  | append first rest ih1 ih2 =>
    rw [loopsAll_append, jumpsAll_append] at hok
    obtain ⟨hcorrect1, hnumbers1⟩ := ih1 hok.left
    obtain ⟨hcorrect2, hnumbers2⟩ := ih2 (hok.right.later hnumbers1.grows)
    rw [loopsAll_append, loopsAll_append]
    exact ⟨jumpCorrectIn_append.mpr ⟨hcorrect1, hcorrect2⟩, hok.numbers_append hnumbers1 hnumbers2⟩
  | leaf isLeaf s => exact ⟨hok.innermost, .refl hok.nodup hok.issued⟩
  | branch thenRun elseRun ih1 ih2 =>
    obtain ⟨hcorrect1, hnumbers1⟩ := ih1 hok.left
    obtain ⟨hcorrect2, hnumbers2⟩ := ih2 (hok.right.later hnumbers1.grows)
    exact ⟨forall_mem_append.mpr ⟨hcorrect1, hcorrect2⟩, hok.numbers_append hnumbers1 hnumbers2⟩
  | overload bodyRun rest ih1 ih2 =>
    obtain ⟨hcorrect1, hnumbers1⟩ := ih1 hok.left
    obtain ⟨hcorrect2, hnumbers2⟩ := ih2  (hok.right.later hnumbers1.grows)
    exact ⟨forall_mem_append.mpr ⟨hcorrect1, hcorrect2⟩, hok.numbers_append hnumbers1 hnumbers2⟩
  | kept entry count bodyRun ih =>
    obtain ⟨hcorrect, hnumbers⟩ := ih hok.inside
    exact ⟨hcorrect, hok.numbers_loop hnumbers⟩
  | replaced entry count bodyRun copies ih =>
    -- no jump is counted, so the body is dealt with as if it stood in no loop
    have hjumps := (UnrollPlan.eligible_of_copies count).1.2.2
    have hbody := hok.body_of_not_counts fun hcounts => hcounts _ entry hjumps
    obtain ⟨hcorrect, hnumbers⟩ := ih hbody
    obtain ⟨hnumbers', hblocks⟩ := copies.jumps hcorrect hnumbers.nodup
    exact ⟨hblocks.of_none, hnumbers'.of_new hnumbers.grows _⟩

/-- **Unrolling keeps every jump at its innermost loop.** -/
theorem jumpCorrect_unrollLoops {s : Storage} {ir : List Instruction} (hcorrect : JumpCorrect ir)
    (hnodup : (loopIds ir).Nodup) (hissued : ∀ id ∈ loopIds ir, s.Has (.loop id))
    (hentries : ∀ id ∈ loopIds ir, (plan.analysis.find? id).isSome)
    (hcounted : ∀ j ∈ jumpsAll none ir, plan.Counts j.target) :
    ∃ out, (unrollLoops plan s ir).outcome = .ok out ∧ JumpCorrect out ∧ (loopIds out).Nodup
      ∧ ∀ id ∈ loopIds out, (unrollLoops plan s ir).storage.Has (.loop id) := by
  obtain ⟨out, s', hresult, hrun⟩ := exists_unrollRun (s := s) hentries
  rw [loopIds_eq] at hnodup hissued
  obtain ⟨hout, hnumbers⟩ := hrun.jumps ⟨hnodup, hissued, hcorrect, hcounted⟩
  rw [hresult]
  refine ⟨out, rfl, hout, ?_, ?_⟩
  · rw [loopIds_eq]
    exact hnumbers.nodup
  · rw [loopIds_eq]
    exact hnumbers.issued

end

end Shading
