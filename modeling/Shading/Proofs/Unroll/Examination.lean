/-
  Shading.Proofs.Unroll.Examination — which loops unrolling looks up.

  A loop is looked up once everything inside of it has been dealt with, and before it is replaced.
  What takes its place may hold loops again, with new numbers, for which no analysis can have an
  entry.  They are never looked up: the loops that are looked up are those of the list that unrolling
  is given, each once, from the inside to the outside.
-/
import Mathlib.Data.List.TakeWhile
import Shading.Proofs.Unroll.Copies
import Shading.Proofs.Unroll.Expansion

namespace Shading

open List Instruction

/-! ## §1. Loops from the inside to the outside -/

/-- The loops, each after those inside of it. -/
def Gathering.inward : Gathering Unit LoopId where
  leaf _ _ := []
  loop id _ _ inside := inside ++ [id]

/-- The loops of the instructions, each after those inside of it. -/
def Instruction.inwardAll (is : List Instruction) : List LoopId :=
  gatherAll .inward () is

theorem Instruction.inwardAll_append (xs ys : List Instruction) :
    inwardAll (xs ++ ys) = inwardAll xs ++ inwardAll ys :=
  gatherAll_append .inward () xs ys

/-- **The loops from the inside to the outside are the loops of a list.** -/
theorem Instruction.inwardAll_perm (is : List Instruction) :
    (inwardAll is).Perm (loopsAll is) := by
  induction is using induction with
  | nil | function => exact .nil
  | append xs ys ih1 ih2 =>
    rw [inwardAll_append, loopsAll_append]
    exact ih1.append ih2
  | leaf i h =>
    have hnone : inwardAll [i] = [] := gather_of_isLeaf .inward () h
    rw [hnone, loopsAll_of_isLeaf h]
  | branch _ _ _ ih1 ih2 | overload _ _ _ _ _ _ ih1 ih2 => exact ih1.append ih2
  | loop id _ _ ih => exact (perm_append_singleton id _).trans (ih.cons id)

/-! ## §2. Computations that look loops up -/

/-- The analysis has no entry for the loop. -/
def UnrollPlan.lacks (plan : UnrollPlan) (id : LoopId) : Bool := (plan.analysis.find? id).isNone

/-- The note that is left for the loop, if it is replaced. -/
def UnrollPlan.note? (plan : UnrollPlan) (id : LoopId) : Option UnrollNote :=
  (plan.count? id).map (UnrollNote.mk id)

/-- The notes that are left for the loops before the first one that has no entry. -/
def UnrollPlan.notes (plan : UnrollPlan) (ids : List LoopId) : List UnrollNote :=
  (ids.takeWhile fun id => !plan.lacks id).filterMap plan.note?

theorem MissingAnalysis.error_eq_iff {α : Type} (d e : MissingAnalysis) :
    (Except.error d : Except MissingAnalysis α) = .error e ↔ some d.id = some e.id := by
  cases d
  cases e
  simp

/-- The computation looks these loops up, one after the other: it fails at the first one that has no
    entry, and leaves notes for those before it.  What the analysis says of other loops is of no
    account. -/
structure UnrollM.LooksUp {α : Type} (ids : List LoopId) (x : UnrollPlan → UnrollM α) : Prop where
  fails : ∀ plan s e, ((x plan).run.run s).1 = .error e ↔ ids.find? plan.lacks = some e.id
  notes : ∀ plan s, ((x plan).run.run s).2.notes = (plan.notes ids).reverse ++ s.notes
  congr : ∀ plan other, (∀ id ∈ ids, other.find? id = plan.analysis.find? id) →
    x { plan with analysis := other } = x plan

section

variable {plan : UnrollPlan} {ids ids' : List LoopId}

theorem UnrollPlan.notes_append_of_lacks {e : LoopId} (h : ids.find? plan.lacks = some e) :
    plan.notes (ids ++ ids') = plan.notes ids := by
  have hlacks : ¬ ∀ id ∈ ids, (!plan.lacks id) = true := by
    intro hall
    have he := hall e (mem_of_find?_eq_some h)
    rw [find?_some h] at he
    cases he
  unfold UnrollPlan.notes
  rw [takeWhile_append, if_neg]
  intro hlength
  refine hlacks (takeWhile_eq_self_iff.mp ?_)
  exact ( takeWhile_prefix _).eq_of_length hlength

theorem UnrollPlan.notes_append (h : ids.find? plan.lacks = none) :
    plan.notes (ids ++ ids') = plan.notes ids ++ plan.notes ids' := by
  have hself : ids.takeWhile (fun id => !plan.lacks id) = ids := by
    refine takeWhile_eq_self_iff.mpr fun id hid => ?_
    rw [Bool.not_eq_true']
    exact Bool.eq_false_iff.mpr (List.find?_eq_none.mp h id hid)
  unfold UnrollPlan.notes
  rw [takeWhile_append, if_pos (by rw [hself]), hself, filterMap_append]

namespace UnrollM.LooksUp

variable {α β : Type} {x : UnrollPlan → UnrollM α}

theorem cases_run (x : UnrollM α) (s : UnrollState) :
    (∃ e, (x.run.run s).1 = .error e) ∨ ∃ a, (x.run.run s).1 = .ok a := by
  cases (x.run.run s).1 with
  | error e => exact .inl ⟨e, rfl⟩
  | ok a => exact .inr ⟨a, rfl⟩

theorem pure (a : α) : LooksUp [] (fun _ => Pure.pure a) where
  fails := fun _ _ _ => ⟨nofun, nofun⟩
  notes := fun _ _ => rfl
  congr := fun _ _ _ => rfl

theorem find?_eq_none (h : LooksUp ids x) {s : UnrollState} {a : α}
    (hok : ((x plan).run.run s).1 = .ok a) : ids.find? plan.lacks = none := by
  cases hfind : ids.find? plan.lacks with
  | none => rfl
  | some id =>
    rw [(h.fails plan s ⟨id⟩).mpr hfind] at hok
    cases hok

/-- Lookups happen in order and stop at the first that fails. -/
theorem bind {f : UnrollPlan → α → UnrollM β} (h : LooksUp ids x)
    (h' : ∀ a, LooksUp ids' fun plan => f plan a) :
    LooksUp (ids ++ ids') fun plan => x plan >>= f plan := by
  have hrun : ∀ plan s, (x plan >>= f plan).run.run s
      = (ExceptT.bindCont (f plan) ((x plan).run.run s).1) ((x plan).run.run s).2 := fun _ _ => rfl
  refine ⟨fun plan s e => ?_, fun plan s => ?_, fun plan other hagree => ?_⟩
  · rw [hrun, find?_append]
    rcases cases_run (x plan) s with ⟨d, hd⟩ | ⟨a, ha⟩
    · -- the first part has failed, and the second is not reached
      rw [hd, (h.fails plan s d).mp hd]
      exact MissingAnalysis.error_eq_iff d e
    · rw [ha, h.find?_eq_none ha]
      exact (h' a).fails plan _ e
  · rw [hrun]
    rcases cases_run (x plan) s with ⟨d, hd⟩ | ⟨a, ha⟩
    · rw [hd, UnrollPlan.notes_append_of_lacks ((h.fails plan s d).mp hd)]
      exact h.notes plan s
    · rw [ha, UnrollPlan.notes_append (h.find?_eq_none ha), reverse_append, append_assoc,
        ← h.notes plan s]
      exact (h' a).notes plan _
  · obtain ⟨hfirst, hrest⟩ := forall_mem_append.mp hagree
    rw [h.congr plan other hfirst, funext fun a => (h' a).congr plan other hrest]

theorem map (h : LooksUp ids x) (f : α → β) :
    LooksUp ids fun plan => x plan >>= fun a => Pure.pure (f a) := by
  have hpure (a : α) : LooksUp [] fun _ => (Pure.pure (f a) : UnrollM β) := pure (f a)
  have hbind := h.bind hpure
  rwa [List.append_nil] at hbind

end UnrollM.LooksUp

theorem UnrollM.run_replace (plan : UnrollPlan) (id : LoopId) (controls : Controls)
    (body : List Instruction) (s : UnrollState) :
    (plan.lacks id = true
        ∧ (UnrollM.replace plan id controls body).run.run s = (.error ⟨id⟩, s))
      ∨ (plan.lacks id = false ∧ ∃ is' t, (UnrollM.replace plan id controls body).Yields s is'
          ⟨t, (plan.note? id).toList ++ s.notes⟩) := by
  unfold UnrollM.replace UnrollPlan.lacks UnrollPlan.note? UnrollPlan.count?
  cases plan.analysis.find? id with
  | none => exact .inl ⟨rfl, rfl⟩
  | some info =>
    refine .inr ⟨rfl, ?_⟩
    simp only [Option.bind_some]
    cases plan.copies? info with
    | none => exact ⟨_, s.storage, .pure s _⟩
    | some n =>
      let noted : UnrollState := { s with notes := ⟨id, n⟩ :: s.notes }
      have hnoted : UnrollM.Yields (modify fun s => { s with notes := ⟨id, n⟩ :: s.notes }) s ()
        noted := rfl
      obtain ⟨blocks, t, hyields, -, -⟩ := UnrollM.yields_copies body n noted
      exact ⟨(blocks.flatten, true), t, hnoted.bind (hyields.bind (.pure _ _))⟩

/-- Replacing a loop looks up the loop. -/
theorem UnrollM.looksUp_replace (id : LoopId) (controls : Controls) (body : List Instruction) :
    LooksUp [id] fun plan => UnrollM.replace plan id controls body := by
  refine ⟨fun plan s e => ?_, fun plan s => ?_, fun plan other hagree => ?_⟩
  · rcases UnrollM.run_replace plan id controls body s with ⟨hlacks, hrun⟩ | ⟨hlacks, is', t, hrun⟩
    · rw [hrun, find?_cons_of_pos hlacks]
      exact MissingAnalysis.error_eq_iff ⟨id⟩ e
    · rw [show StateT.run _ s = _ from hrun, find?_cons_of_neg (by rw [hlacks]; decide)]
      exact ⟨nofun, nofun⟩
  · rcases UnrollM.run_replace plan id controls body s with ⟨hlacks, hrun⟩ | ⟨hlacks, is', t, hrun⟩
    · rw [hrun, UnrollPlan.notes, takeWhile_cons_of_neg (by rw [hlacks]; decide)]
      rfl
    · rw [show StateT.run _ s = _ from hrun, UnrollPlan.notes,
        takeWhile_cons_of_pos (by rw [hlacks]; rfl)]
      show (plan.note? id).toList ++ s.notes = (List.filterMap plan.note? [id]).reverse ++ s.notes
      cases hnote : plan.note? id with
      | none => rw [filterMap_cons_none hnote]; rfl
      | some note => rw [filterMap_cons_some hnote]; rfl
  · unfold UnrollM.replace
    rw [hagree id mem_cons_self]
    rfl

end

/-! ## §3. Unrolling -/

mutual

theorem Instruction.unroll_looksUp :
    ∀ i : Instruction, UnrollM.LooksUp (inwardAll [i]) fun plan => i.unroll plan
  | .declare _ => .pure _
  | .function name signatures => (Signature.unrollAll_looksUp name signatures).map _
  | .assign _ => .pure _
  | .ret _ => .pure _
  | .branch _ thenBody elseBody =>
    (Instruction.unrollAll_looksUp thenBody).bind fun _ =>
      (Instruction.unrollAll_looksUp elseBody).map _
  | .loop id controls body =>
    (Instruction.unrollAll_looksUp body).bind fun inside =>
      (UnrollM.looksUp_replace id controls inside.1).map _
  | .jump _ _ => .pure _
  | .rvalue _ => .pure _

/-- **Unrolling looks up the loops of a list from the inside to the outside, and no others.** -/
theorem Instruction.unrollAll_looksUp :
    ∀ is : List Instruction,
      UnrollM.LooksUp (inwardAll is) fun plan => unrollAll plan is
  | [] => .pure _
  | i :: rest => by
    rw [show i :: rest = [i] ++ rest from rfl, inwardAll_append]
    exact (Instruction.unroll_looksUp i).bind fun _ => (Instruction.unrollAll_looksUp rest).map _

theorem Signature.unrollAll_looksUp (name : String) :
    ∀ sigs : List Signature, UnrollM.LooksUp (inwardAll [.function name sigs])
      fun plan => Signature.unrollAll plan sigs
  | [] => .pure _
  | ⟨_, _, body, _⟩ :: rest =>
    ((Instruction.unrollAll_looksUp body).map _).bind fun _ =>
      (Signature.unrollAll_looksUp name rest).map _

end

/-! ## §4. Modules -/

theorem unrollLoops_outcome_eq_error (plan : UnrollPlan) (s : Storage) (ir : List Instruction)
    (e : MissingAnalysis) :
    (unrollLoops plan s ir).outcome = .error e
      ↔ ((unrollAll plan ir).run.run ⟨s, []⟩).1 = .error e := by
  unfold unrollLoops
  split
  next heq => rw [heq]; exact ⟨nofun, nofun⟩
  next heq => rw [heq, Except.error.injEq, Except.error.injEq]

theorem unrollLoops_notes (plan : UnrollPlan) (s : Storage) (ir : List Instruction) :
    (unrollLoops plan s ir).notes
      = ((unrollAll plan ir).run.run ⟨s, []⟩).2.notes.reverse := by
  unfold unrollLoops
  split <;> simp only [*]

theorem mem_inwardAll {ir : List Instruction} {id : LoopId} :
    id ∈ inwardAll ir ↔ id ∈ loopIds ir := by
  rw [loopIds_eq]
  exact (inwardAll_perm ir).mem_iff

/-- **Unrolling a module fails exactly if one of its loops has no entry in the analysis**, wherever the
    loop stands.  It then names the first such loop, from the inside to the outside.  Otherwise the
    loops that are replaced, each with how many copies took its place, are told in that order, which
    has every loop of the module as often as the module does.  What the analysis says of other numbers,
    such as those of the loops in copies, is of no account. -/
theorem unrollLoops_fails_iff (plan : UnrollPlan) (s : Storage) (ir : List Instruction) :
    ((∃ e, (unrollLoops plan s ir).outcome = .error e)
        ↔ ∃ id ∈ loopIds ir, plan.analysis.find? id = none)
      ∧ (∀ e, (unrollLoops plan s ir).outcome = .error e
        ↔ (Instruction.inwardAll ir).find? plan.lacks = some e.id)
      ∧ (unrollLoops plan s ir).notes = plan.notes (Instruction.inwardAll ir)
      ∧ (Instruction.inwardAll ir).Perm (loopIds ir)
      ∧ ∀ other : LoopAnalysis, (∀ id ∈ loopIds ir, other.find? id = plan.analysis.find? id) →
        unrollLoops { plan with analysis := other } s ir = unrollLoops plan s ir := by
  have hlooks := unrollAll_looksUp ir
  have hfails : ∀ e, (unrollLoops plan s ir).outcome = .error e
      ↔ (inwardAll ir).find? plan.lacks = some e.id := fun e =>
    (unrollLoops_outcome_eq_error plan s ir e).trans (hlooks.fails plan ⟨s, []⟩ e)
  refine ⟨?_, hfails, ?_, ?_, ?_⟩
  · constructor
    · intro ⟨e, he⟩
      have hfind := (hfails e).mp he
      have hlacks : plan.lacks e.id = true := find?_some hfind
      exact ⟨e.id, mem_inwardAll.mp (mem_of_find?_eq_some hfind),
        Option.isNone_iff_eq_none.mp hlacks⟩
    · intro ⟨id, hid, hnone⟩
      have hsome : ((inwardAll ir).find? plan.lacks).isSome := by
        rw [find?_isSome]
        exact ⟨id, mem_inwardAll.mpr hid, Option.isNone_iff_eq_none.mpr hnone⟩
      obtain ⟨first, hfirst⟩ := Option.isSome_iff_exists.mp hsome
      exact ⟨⟨first⟩, (hfails ⟨first⟩).mpr hfirst⟩
  · have hnotes := hlooks.notes plan ⟨s, []⟩
    rw [List.append_nil] at hnotes
    rw [unrollLoops_notes, hnotes, reverse_reverse]
  · rw [loopIds_eq]
    exact inwardAll_perm ir
  · intro other hother
    unfold unrollLoops
    rw [hlooks.congr plan other fun id hid => hother id (mem_inwardAll.mp hid)]

/-- The inner loop comes first.  The third one stays, and its copies, which get the numbers 3 and 4, stay
    too: that the plan would have them removed goes unnoticed. -/
theorem unrollLoops_nestedLoops_notes :
    let other : LoopAnalysis := ⟨(⟨3⟩, ⟨0, 0⟩) :: (⟨4⟩, ⟨0, 0⟩) :: nestedPlan.analysis.entries⟩
    (unrollLoops nestedPlan ⟨⟨2⟩, ⟨3⟩, ⟨0⟩⟩ nestedLoops).notes = [⟨⟨1⟩, 3⟩, ⟨⟨0⟩, 2⟩]
      ∧ unrollLoops { nestedPlan with analysis := other } ⟨⟨2⟩, ⟨3⟩, ⟨0⟩⟩ nestedLoops
        = unrollLoops nestedPlan ⟨⟨2⟩, ⟨3⟩, ⟨0⟩⟩ nestedLoops := by
  obtain ⟨-, -, hnotes, -, hother⟩ :=
    unrollLoops_fails_iff nestedPlan ⟨⟨2⟩, ⟨3⟩, ⟨0⟩⟩ nestedLoops
  exact ⟨hnotes.trans (by decide), hother _ (by decide +kernel)⟩

end Shading
