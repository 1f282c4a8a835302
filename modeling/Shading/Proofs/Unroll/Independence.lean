/-
  Shading.Proofs.Unroll.Independence — copies have their own variables and loops.

  A loop that is replaced leaves copies of its body behind, and a body that is copied may hold copies
  already.  Nothing that one of them declares is declared elsewhere, and what a copy uses of the things
  that its body declared is its own.
-/
import Shading.Proofs.Clone.Events
import Shading.Proofs.Unroll.Meaning

namespace Shading

open List Instruction

/-! ## §1. What is left of events -/

variable {s : Storage} {es : List Event}

theorem Issued.later {s' : Storage} (h : Issued s es) (hgrows : s'.Extends s) :
    Issued s' es := fun e he => hgrows _ (h e he)

/-- What is used and not brought along. -/
def foreignUses (es : List Event) : List Event :=
  es.filter fun e => e = .uses e.identity ∧ .brings e.identity ∉ es

variable {e : Event}

theorem mem_foreignUses :
    e ∈ foreignUses es ↔ e = .uses e.identity ∧ e ∈ es ∧ .brings e.identity ∉ es := by
  unfold foreignUses
  rw [mem_filter, decide_eq_true_eq]
  exact and_left_comm

theorem brings_notMem_foreignUses (a : Identity) (es : List Event) :
    .brings a ∉ foreignUses es := by
  intro h
  have huses := (mem_foreignUses.mp h).1
  cases huses

/-- What is left of the events of a loop where it stood, from what is left of those of its body.  The
    controls of a loop that is replaced are gone. -/
def UnrollPlan.leaves (plan : UnrollPlan) (id : LoopId) (controls : Controls) (body : List Event) :
    List Event :=
  match plan.count? id with
  | none => .brings (.loop id) :: (mentions controls.uses ++ body)
  | some 0 => []
  | some (_ + 1) => foreignUses body

variable {plan : UnrollPlan} {id : LoopId}

theorem UnrollPlan.mem_leaves {n : Nat} (hcount : plan.count? id = some n) {controls : Controls}
    {body : List Event} : e ∈ plan.leaves id controls body ↔ n ≠ 0 ∧ e ∈ foreignUses body := by
  unfold UnrollPlan.leaves
  rw [hcount]
  cases n with
  | zero => exact ⟨nofun, fun h => absurd rfl h.1⟩
  | succ n => exact ⟨fun h => ⟨nofun, h⟩, fun h => h.2⟩

/-- What is left of events. -/
def UnrollPlan.left (plan : UnrollPlan) : Gathering Unit Event :=
  { Gathering.events with loop := fun id controls _ inside => plan.leaves id controls inside }

/-- What is left of the events of the instructions. -/
def Instruction.leftAll (plan : UnrollPlan) (is : List Instruction) : List Event :=
  gatherAll plan.left () is

theorem Instruction.leftAll_append (plan : UnrollPlan) (xs ys : List Instruction) :
    leftAll plan (xs ++ ys)
      = leftAll plan xs ++ leftAll plan ys :=
  gatherAll_append plan.left () xs ys

/-- The events of a piece become those of another piece while the storage grows.  Of what was there
    before, just `left` is left; what is new comes along where it is used. -/
structure Becomes (s s' : Storage) (old left new : List Event) : Prop where
  grows : s'.Extends s
  within : ∀ e ∈ left, e ∈ old
  keeps : ∀ e : Event, s.Has e.identity → (e ∈ new ↔ e ∈ left)
  settles : ∀ a, .uses a ∈ new → ¬ s.Has a → .brings a ∈ new
  issued : Issued s' new
  tidy : Tidy old → Tidy new

namespace Becomes

variable {s s1 s2 : Storage} {old left new old1 left1 new1 : List Event}

theorem refl (h : Issued s es) : Becomes s s es es es :=
  ⟨.refl s, fun _ => id, fun _ _ => Iff.rfl, fun _ ha hs => absurd (h _ ha) hs, h, id⟩

theorem nil (s : Storage) (old : List Event) : Becomes s s old [] [] :=
  ⟨.refl s, nofun, fun _ _ => Iff.rfl, nofun, nofun, fun _ => List.Pairwise.nil⟩

/-- Two parts become what they become one after the other. -/
theorem append (h : Becomes s s1 old left new) (h1 : Becomes s1 s2 old1 left1 new1)
    (hissued : Issued s old1) : Becomes s s2 (old ++ old1) (left ++ left1) (new ++ new1) where
  grows := h1.grows.trans h.grows
  within := fun e he => by
    rcases mem_append.mp he with he | he
    · exact mem_append_left _ (h.within e he)
    · exact mem_append_right _ (h1.within e he)
  keeps := fun e he => by
    rw [mem_append, mem_append, h.keeps e he, h1.keeps e (h.grows _ he)]
  settles := fun a ha hs => by
    rcases mem_append.mp ha with ha | ha
    · exact mem_append_left _ (h.settles a ha hs)
    · refine mem_append_right _ (h1.settles a ha fun hs1 => hs ?_)
      -- the second piece knows nothing that the first one has made
      exact hissued _ (h1.within _ ((h1.keeps (.uses a) hs1).mp ha))
  issued := forall_mem_append.mpr ⟨h.issued.later h1.grows, h1.issued⟩
  tidy := fun htidy => by
    obtain ⟨hold, hold1, hapart⟩ := tidy_append.mp htidy
    refine tidy_append.mpr ⟨h.tidy hold, h1.tidy hold1, fun e he hbrings => ?_⟩
    -- what the second piece brings along and the first one knows was there before both
    have hbrought := h1.within _ ((h1.keeps (.brings e.identity) (h.issued e he)).mp hbrings)
    have hknown := h.within e ((h.keeps e (hissued (.brings e.identity) hbrought)).mp he)
    exact hapart e hknown hbrought

end Becomes

/-! ## §2. Copies -/

/-- A copy becomes new events and keeps foreign uses. -/
theorem Retraces.becomes {c : CloneState} {body block : List Event}
    (h : Retraces ⟨s, .empty⟩ c body block) (hissued : Issued s body) (htidy : Tidy body) :
    Becomes s c.storage (foreignUses body) (foreignUses body) block where
  grows := h.grows
  within := fun _ => id
  keeps := fun e he => by
    rw [h.events, mem_map, mem_foreignUses]
    constructor
    · rintro ⟨known, hknown, rfl⟩
      rw [Event.identity_map] at he ⊢
      -- what the body brings along has been replaced by something that was not there
      have hforeign : .brings known.identity ∉ body := fun hmem => h.fresh _ hmem he
      have hsame : known.map c.renewed.image = known := by
        rw [Event.map_congr (g := id) (h.image_eq hforeign)]
        cases known <;> rfl
      rw [h.image_eq hforeign, hsame]
      refine ⟨?_, hknown, hforeign⟩
      cases known with
      | brings a => exact absurd hknown hforeign
      | uses a => rfl
    · rintro ⟨huses, hmem, hforeign⟩
      refine ⟨e, hmem, ?_⟩
      rw [Event.map_congr (g := id) (h.image_eq hforeign)]
      cases e <;> rfl
  settles := fun a ha hs => by
    rw [h.events] at ha ⊢
    obtain ⟨known, hknown, heq⟩ := mem_map.mp ha
    cases known with
    | brings b => cases heq
    | uses b =>
      have himage : c.renewed.image b = a := Event.uses.inj heq
      by_cases hbrought : .brings b ∈ body
      · exact mem_map.mpr ⟨.brings b, hbrought, congrArg Event.brings himage⟩
      · rw [h.image_eq hbrought] at himage
        exact absurd (hissued _ hknown) (himage ▸ hs)
  issued := h.issued_copy hissued
  tidy := fun _ => h.tidy_copy hissued htidy

theorem mem_flatten_replicate {n : Nat} : e ∈ (List.replicate n es).flatten ↔ n ≠ 0 ∧ e ∈ es := by
  rw [mem_flatten]
  constructor
  · rintro ⟨_, hmem, he⟩
    obtain ⟨hn, rfl⟩ := mem_replicate.mp hmem
    exact ⟨hn, he⟩
  · rintro ⟨hn, he⟩
    exact ⟨es, mem_replicate.mpr ⟨hn, rfl⟩, he⟩

variable {body : List Instruction}

/-- **Copies of a tidy body**: each has its own variables and loops, and all of them together keep what
    the body uses of others. -/
theorem CopyRun.becomes {t t' : Storage} {blocks : List (List Instruction)}
    (h : CopyRun body t blocks t') (hissued : Issued t (eventsAll body))
    (htidy : Tidy (eventsAll body)) :
    let foreign := (List.replicate blocks.length (foreignUses (eventsAll body))).flatten
    Becomes t t' foreign foreign (eventsAll blocks.flatten)
      ∧ ∀ block ∈ blocks, OwnCopy (eventsAll body) (eventsAll block) := by
  induction h with
  | done t => exact ⟨.nil t [], nofun⟩
  | @copy t t' blocks rest ih =>
    have hretraces := retraces_cloneAll ⟨t, .empty⟩ body htidy
    have hfirst := hretraces.becomes hissued htidy
    obtain ⟨hblocks, hown⟩ := ih (hissued.later hfirst.grows)
    rw [length_cons, replicate_succ, flatten_cons, flatten_cons,
      eventsAll_append]
    refine ⟨hfirst.append hblocks fun e he => ?_,
      forall_mem_cons.mpr ⟨hretraces.ownCopy hissued, hown⟩⟩
    exact hissued e (mem_foreignUses.mp (mem_flatten_replicate.mp he).2).2.1

/-- **A loop becomes copies**: of what was there before, only what the copied body uses of others is
    left, and each copy has its own variables and loops. -/
theorem Becomes.copies {s1 s2 : Storage} {old left : List Event} {blocks : List (List Instruction)}
    (h : Becomes s s1 old left (eventsAll body)) (htidy : Tidy old)
    (hcount : plan.count? id = some blocks.length) (hrun : CopyRun body s1 blocks s2)
    (controls : Controls) :
    Becomes s s2 (.brings (.loop id) :: (mentions controls.uses ++ old))
        (plan.leaves id controls left) (eventsAll blocks.flatten)
      ∧ ∀ block ∈ blocks, OwnCopy (eventsAll body) (eventsAll block) := by
  obtain ⟨hblocks, hown⟩ := hrun.becomes h.issued (h.tidy htidy)
  refine ⟨⟨hblocks.grows.trans h.grows, fun e he => ?_, fun e he => ?_, fun a ha hs => ?_,
    hblocks.issued, fun _ => hblocks.tidy (tidy_of_uses fun a ha => ?_)⟩, hown⟩
  · have hleft := (mem_foreignUses.mp ((UnrollPlan.mem_leaves hcount).mp he).2).2.1
    exact mem_cons_of_mem _ (mem_append_right _ (h.within e hleft))
  · rw [hblocks.keeps e (h.grows _ he), mem_flatten_replicate, UnrollPlan.mem_leaves hcount,
      mem_foreignUses, mem_foreignUses, h.keeps e he, h.keeps (.brings e.identity) he]
  · -- what the body uses and was made on the way is the body's own, and so it is replaced
    refine hblocks.settles a ha fun hs1 => ?_
    have hforeign := (mem_flatten_replicate.mp ((hblocks.keeps (.uses a) hs1).mp ha)).2
    obtain ⟨-, huses, hnot⟩ := mem_foreignUses.mp hforeign
    exact hnot (h.settles a huses hs)
  · exact brings_notMem_foreignUses a _ (mem_flatten_replicate.mp ha).2

/-! ## §3. Unrolling -/

/-- The bodies of the loops. -/
def Gathering.loopBodies : Gathering Unit (List Instruction) where
  leaf _ _ := []
  loop _ _ body inside := body :: inside

/-- The bodies of the loops of the instructions, also of those inside of others. -/
def Instruction.loopBodiesAll (is : List Instruction) : List (List Instruction) :=
  gatherAll .loopBodies () is

theorem Instruction.loopBodiesAll_append (xs ys : List Instruction) :
    loopBodiesAll (xs ++ ys)
      = loopBodiesAll xs ++ loopBodiesAll ys :=
  gatherAll_append .loopBodies () xs ys

/-- The bodies are tidy. -/
def TidyBodies (bodies : List (List Instruction)) : Prop :=
  ∀ body ∈ bodies, Tidy (eventsAll body)

/-- The bodies of the loops of a tidy list are tidy. -/
theorem Instruction.tidy_loopBodiesAll (is : List Instruction)
    (h : Tidy (eventsAll is)) : TidyBodies (loopBodiesAll is) := by
  induction is using induction with
  | nil | function => exact nofun
  | append xs ys ih1 ih2 =>
    rw [eventsAll_append] at h
    obtain ⟨hxs, hys, -⟩ := tidy_append.mp h
    rw [loopBodiesAll_append]
    exact forall_mem_append.mpr ⟨ih1 hxs, ih2 hys⟩
  | leaf i hi =>
    have hnone : loopBodiesAll [i] = [] := gather_of_isLeaf .loopBodies () hi
    rw [hnone]
    exact nofun
  | branch _ _ _ ih1 ih2 =>
    obtain ⟨hhead, helse, -⟩ := tidy_append.mp h
    obtain ⟨-, hthen, -⟩ := tidy_append.mp hhead
    exact forall_mem_append.mpr ⟨ih1 hthen, ih2 helse⟩
  | loop _ _ _ ih =>
    obtain ⟨-, hbody, -⟩ := tidy_append.mp h.tail
    exact forall_mem_cons.mpr ⟨hbody, ih hbody⟩
  | overload _ _ _ _ _ _ ih1 ih2 =>
    obtain ⟨hfirst, hothers, -⟩ := tidy_append.mp h
    exact forall_mem_append.mpr ⟨ih1 (tidy_append.mp hfirst).2.1, ih2 hothers⟩

/-- The list unfolds to the other one: a loop that the plan replaces becomes copies, each with its own
    variables and loops, of what its body unfolds to, and nothing else changes. -/
inductive Unfolds (plan : UnrollPlan) : List Instruction → List Instruction → Prop
  | nil : Unfolds plan [] []
  | append {is is' js js' : List Instruction} (first : Unfolds plan is is') (rest : Unfolds plan js js') :
      Unfolds plan (is ++ js) (is' ++ js')
  | leaf {i : Instruction} (isLeaf : i.isLeaf = true) : Unfolds plan [i] [i]
  | branch {condition : Rvalue} {thenBody thenBody' elseBody elseBody' : List Instruction}
      (thenUnfolds : Unfolds plan thenBody thenBody') (elseUnfolds : Unfolds plan elseBody elseBody') :
      Unfolds plan [.branch condition thenBody elseBody] [.branch condition thenBody' elseBody']
  | function (name : String) : Unfolds plan [.function name []] [.function name []]
  | overload {name : String} {returnType : Ty} {parameters : List Var} {body body' : List Instruction}
      {isDefined : Bool} {ss ss' : List Signature} (bodyUnfolds : Unfolds plan body body')
      (rest : Unfolds plan [.function name ss] [.function name ss']) :
      Unfolds plan [.function name (⟨returnType, parameters, body, isDefined⟩ :: ss)]
        [.function name (⟨returnType, parameters, body', isDefined⟩ :: ss')]
  | kept {id : LoopId} {controls : Controls} {body body' : List Instruction}
      (count : plan.count? id = none) (bodyUnfolds : Unfolds plan body body') :
      Unfolds plan [.loop id controls body] [.loop id controls body']
  | unrolled {id : LoopId} {controls : Controls} {body body' : List Instruction}
      {blocks : List (List Instruction)} (count : plan.count? id = some blocks.length)
      (bodyUnfolds : Unfolds plan body body')
      (own : ∀ block ∈ blocks,
        OwnCopy (eventsAll body') (eventsAll block)) :
      Unfolds plan [.loop id controls body] blocks.flatten

/-- **What unrolling does to a list and to its events.** -/
theorem UnrollRun.unfolds {plan : UnrollPlan} {is is' : List Instruction} {s s' : UnrollState}
    (h : UnrollRun plan is s is' s') (hissued : Issued s.storage (eventsAll is))
    (htidy : TidyBodies (loopBodiesAll is)) :
    Becomes s.storage s'.storage (eventsAll is) (leftAll plan is)
      (eventsAll is') ∧ Unfolds plan is is' := by
  induction h with
  | nil s => exact ⟨.nil s.storage [], .nil⟩
  | append first rest ih1 ih2 =>
    rw [eventsAll_append] at hissued
    obtain ⟨hfirst, hrest⟩ := forall_mem_append.mp hissued
    rw [loopBodiesAll_append] at htidy
    obtain ⟨htidyFirst, htidyRest⟩ := forall_mem_append.mp htidy
    obtain ⟨hbecomes1, hunfolds1⟩ := ih1 hfirst htidyFirst
    obtain ⟨hbecomes2, hunfolds2⟩ := ih2 (Issued.later hrest hbecomes1.grows) htidyRest
    rw [eventsAll_append, eventsAll_append, leftAll_append]
    exact ⟨hbecomes1.append hbecomes2 hrest, .append hunfolds1 hunfolds2⟩
  | @leaf i isLeaf s =>
    have hleft : leftAll plan [i] = eventsAll [i] :=
      (gather_of_isLeaf plan.left () isLeaf).trans
        (gather_of_isLeaf .events () isLeaf).symm
    rw [hleft]
    exact ⟨.refl hissued, .leaf isLeaf⟩
  | branch thenRun elseRun ih1 ih2 =>
    obtain ⟨hhead, helse⟩ := forall_mem_append.mp hissued
    obtain ⟨hcondition, hthen⟩ := forall_mem_append.mp hhead
    obtain ⟨htidyThen, htidyElse⟩ := forall_mem_append.mp htidy
    obtain ⟨hbecomes1, hunfolds1⟩ := ih1 hthen htidyThen
    obtain ⟨hbecomes2, hunfolds2⟩ := ih2 (Issued.later helse hbecomes1.grows) htidyElse
    exact ⟨((Becomes.refl hcondition).append hbecomes1 hthen).append hbecomes2 helse,
      .branch hunfolds1 hunfolds2⟩
  | function name s => exact ⟨.nil s.storage [], .function name⟩
  | overload bodyRun rest ih1 ih2 =>
    obtain ⟨hsig, hothers⟩ := forall_mem_append.mp hissued
    obtain ⟨hparameters, hbody⟩ := forall_mem_append.mp hsig
    obtain ⟨htidyBody, htidyOthers⟩ := forall_mem_append.mp htidy
    obtain ⟨hbecomes1, hunfolds1⟩ := ih1 hbody htidyBody
    obtain ⟨hbecomes2, hunfolds2⟩ := ih2 (Issued.later hothers hbecomes1.grows) htidyOthers
    exact ⟨((Becomes.refl hparameters).append hbecomes1 hbody).append hbecomes2 hothers,
      .overload hunfolds1 hunfolds2⟩
  | @kept id controls _ body _ _ _ entry count bodyRun ih =>
    obtain ⟨hid, hloop⟩ := forall_mem_cons.mp hissued
    obtain ⟨hcontrols, hbody⟩ := forall_mem_append.mp hloop
    obtain ⟨hbecomes, hunfolds⟩ := ih hbody (forall_mem_cons.mp htidy).2
    have hcount := (UnrollPlan.count?_eq entry).trans count
    have hleft : leftAll plan [.loop id controls body]
        = .brings (.loop id) :: (mentions controls.uses ++ leftAll plan body) := by
      show plan.leaves id controls _ = _
      rw [UnrollPlan.leaves, hcount]
      rfl
    rw [hleft]
    exact ⟨(Becomes.refl (forall_mem_cons.mpr ⟨hid, hcontrols⟩)).append hbecomes hbody,
      .kept hcount hunfolds⟩
  | replaced entry count bodyRun copies ih =>
    have hbody := (forall_mem_append.mp (forall_mem_cons.mp hissued).2).2
    obtain ⟨htidyBody, htidyBodies⟩ := forall_mem_cons.mp htidy
    obtain ⟨hbecomes, hunfolds⟩ := ih hbody htidyBodies
    have hcount := (UnrollPlan.count?_eq entry).trans count
    obtain ⟨hcopies, hown⟩ := hbecomes.copies htidyBody hcount copies _
    exact ⟨hcopies, .unrolled hcount hunfolds hown⟩

/-! ## §4. Modules -/

/-- The variables and loops of a module come from the storage.  Each variable is declared at most once,
    and not after a use; each loop stands at one place. -/
structure WellNumbered (s : Storage) (ir : List Instruction) : Prop where
  declared : ∀ v ∈ declaredVars ir, v.id < s.vars.issued
  used : ∀ v ∈ usedVars ir, v.id < s.vars.issued
  loops : ∀ id ∈ loopIds ir, id.number < s.loops.issued
  declaredOnce : ((declaredVars ir).map (·.id)).Nodup
  loopsOnce : (loopIds ir).Nodup
  inOrder : DeclaresFirst (walkModule ir)

/-- Numbering well means that all is issued and tidy. -/
theorem wellNumbered_iff {ir : List Instruction} :
    WellNumbered s ir ↔ Issued s (eventsAll ir) ∧ Tidy (eventsAll ir) := by
  rw [← eventsIn_walkAll 0 ir, tidy_eventsIn]
  constructor
  · intro h
    refine ⟨fun e he => ?_, h.declaredOnce, h.loopsOnce, h.inOrder⟩
    cases e with
    | brings a =>
      cases a with
      | var number =>
        obtain ⟨v, hv, rfl⟩ := mem_map.mp (brings_var_mem_eventsIn.mp he)
        exact h.declared v hv
      | loop id => exact h.loops id (brings_loop_mem_eventsIn.mp he)
    | uses a =>
      obtain ⟨v, hv, rfl⟩ := uses_mem_eventsIn.mp he
      exact h.used v hv
  · rintro ⟨hissued, hdeclared, hloops, horder⟩
    refine ⟨fun v hv => ?_, fun v hv => ?_, fun id hid => ?_, hdeclared, hloops, horder⟩
    · exact hissued _ (brings_var_mem_eventsIn.mpr (mem_map_of_mem hv))
    · exact hissued _ (uses_mem_eventsIn.mpr ⟨v, hv, rfl⟩)
    · exact hissued _ (brings_loop_mem_eventsIn.mpr hid)

/-- **Copies are independent of each other and of everything else.**  Let every loop of a module have an
    entry in the analysis, and let the module be well numbered.  Then unrolling returns a module that is
    well numbered again: whatever was copied, and however often, each variable is declared at most once
    and each loop stands at one place in all of it.  Wherever a loop has been replaced, each copy has
    the events of the body that was copied, and uses its own variables where the body used the body's. -/
theorem unrollLoops_independent (plan : UnrollPlan) (s : Storage) (ir : List Instruction)
    (h : WellNumbered s ir) (hentries : ∀ id ∈ loopIds ir, (plan.analysis.find? id).isSome) :
    ∃ out, (unrollLoops plan s ir).outcome = .ok out
      ∧ WellNumbered (unrollLoops plan s ir).storage out ∧ Unfolds plan ir out := by
  obtain ⟨hissued, htidy⟩ := wellNumbered_iff.mp h
  obtain ⟨out, s', hresult, hrun⟩ := exists_unrollRun (s := s) hentries
  obtain ⟨hbecomes, hunfolds⟩ := hrun.unfolds hissued (tidy_loopBodiesAll ir htidy)
  rw [hresult]
  exact ⟨out, rfl, wellNumbered_iff.mpr ⟨hbecomes.issued, hbecomes.tidy htidy⟩, hunfolds⟩

theorem unrollLoops_independent_nestedLoops :
    WellNumbered ⟨⟨2⟩, ⟨3⟩, ⟨0⟩⟩ nestedLoops
      ∧ ∃ out, (unrollLoops nestedPlan ⟨⟨2⟩, ⟨3⟩, ⟨0⟩⟩ nestedLoops).outcome = .ok out
        ∧ ((declaredVars out).map (·.id)).Nodup ∧ (loopIds out).Nodup
        ∧ Unfolds nestedPlan nestedLoops out := by
  have h : WellNumbered ⟨⟨2⟩, ⟨3⟩, ⟨0⟩⟩ nestedLoops :=
    ⟨by decide, by decide, by decide, by decide, by decide, by decide⟩
  obtain ⟨out, hout, hnumbered, hunfolds⟩ :=
    unrollLoops_independent nestedPlan ⟨⟨2⟩, ⟨3⟩, ⟨0⟩⟩ nestedLoops h (by decide)
  exact ⟨h, out, hout, hnumbered.declaredOnce, hnumbered.loopsOnce, hunfolds⟩

end Shading
