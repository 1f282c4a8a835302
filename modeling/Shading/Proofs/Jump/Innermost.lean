/-
  Shading.Proofs.Jump.Innermost — jumps and the loops around them.

  A jump names the loop that it leaves or begins anew.  It has to be the innermost one around the jump,
  and it has to stand in the same body: the body of a function that is declared inside of a loop is
  not inside of that loop.
-/
import Shading.Proofs.Clone.Identity
import Shading.Proofs.Walk

namespace Shading

open List Instruction

/-! ## §1. Jumps -/

/-- A jump, by the innermost loop around it in its body and the loop that it goes to. -/
structure JumpSite where
  enclosing : Option LoopId
  target : LoopId
deriving DecidableEq

/-- The jump goes to the innermost loop around it. -/
def JumpSite.Innermost (j : JumpSite) : Prop := j.enclosing = some j.target

instance (j : JumpSite) : Decidable j.Innermost := inferInstanceAs (Decidable (_ = _))

/-- The jumps.  The body of a function stands in no loop. -/
def Gathering.jumps : Gathering (Option LoopId) JumpSite where
  leaf
    | enclosing, .jump _ target => [⟨enclosing, target⟩]
    | _, _ => []
  enter _ id := some id
  body _ := none

/-- The jumps of instructions that stand in the loop. -/
def Instruction.jumpsAll (enclosing : Option LoopId) (is : List Instruction) : List JumpSite :=
  gatherAll .jumps enclosing is

/-- Every jump of the instructions, which stand in the loop, goes to the innermost loop around it. -/
def JumpCorrectIn (enclosing : Option LoopId) (is : List Instruction) : Prop :=
  ∀ j ∈ jumpsAll enclosing is, j.Innermost

/-- Every jump of a module lies inside of a loop of its body and goes to the innermost one. -/
def JumpCorrect (ir : List Instruction) : Prop := JumpCorrectIn none ir

instance (enclosing : Option LoopId) (is : List Instruction) :
    Decidable (JumpCorrectIn enclosing is) :=
  inferInstanceAs (Decidable (∀ j ∈ _, _))

instance (ir : List Instruction) : Decidable (JumpCorrect ir) :=
  inferInstanceAs (Decidable (JumpCorrectIn none ir))

theorem Instruction.jumpsAll_append (enclosing : Option LoopId) (xs ys : List Instruction) :
    jumpsAll enclosing (xs ++ ys)
      = jumpsAll enclosing xs ++ jumpsAll enclosing ys :=
  gatherAll_append .jumps enclosing xs ys

section

variable {enclosing enclosing' : Option LoopId}

theorem jumpCorrectIn_append {xs ys : List Instruction} :
    JumpCorrectIn enclosing (xs ++ ys)
      ↔ JumpCorrectIn enclosing xs ∧ JumpCorrectIn enclosing ys := by
  unfold JumpCorrectIn
  rw [jumpsAll_append, forall_mem_append]

/-- A list in which no jump leaves the loop around it has the same jumps in any loop. -/
theorem Instruction.jumpsAll_enclosing (is : List Instruction)
    (h : ∀ j ∈ jumpsAll enclosing is, j.enclosing ≠ enclosing) :
    jumpsAll enclosing' is = jumpsAll enclosing is := by
  induction is using induction with
  | append xs ys ih1 ih2 =>
    rw [jumpsAll_append] at h
    obtain ⟨h1, h2⟩ := forall_mem_append.mp h
    rw [jumpsAll_append, jumpsAll_append, ih1 h1, ih2 h2]
  | leaf i hi =>
    cases i with
    | jump mode target => exact absurd rfl (h ⟨enclosing, target⟩ (mem_singleton.mpr rfl))
    | function | branch | loop => cases hi
    | declare | assign | ret | rvalue => rfl
  | branch _ thenBody elseBody ih1 ih2 =>
    obtain ⟨h1, h2⟩ := forall_mem_append.mp h
    show jumpsAll enclosing' thenBody ++ jumpsAll enclosing' elseBody = _
    rw [ih1 h1, ih2 h2]
    rfl
  | nil | loop | function | overload => rfl

/-- A block that is correct by itself is correct inside of any loop. -/
theorem JumpCorrectIn.of_none {is : List Instruction} (h : JumpCorrectIn none is) :
    JumpCorrectIn enclosing is := by
  have hinside : ∀ j ∈ jumpsAll none is, j.enclosing ≠ none := by
    intro j hj
    rw [show j.enclosing = some j.target from h j hj]
    exact Option.some_ne_none _
  unfold JumpCorrectIn
  rw [jumpsAll_enclosing is hinside]
  exact h

end

/-! ## §2. Copies -/

section

variable {s : CloneState} {enclosing : Option LoopId}

/-- The jumps of two pieces that are copied one after the other are correct if those of each are. -/
theorem Instruction.jumpCorrectIn_clone_append {xs ys xs' ys' : List Instruction} {s1 : CloneState}
    (hs1 : s1 = ((cloneAll xs).run s).2)
    (hnodup : (loopsAll xs ++ loopsAll ys).Nodup)
    (hout : ∀ id ∈ enclosing, id ∉ loopsAll xs ++ loopsAll ys)
    (h1 : (loopsAll xs).Nodup → (∀ id ∈ enclosing, id ∉ loopsAll xs) →
      JumpCorrectIn (enclosing.map s.renewed.loop) xs')
    (h2 : (loopsAll ys).Nodup → (∀ id ∈ enclosing, id ∉ loopsAll ys) →
      JumpCorrectIn (enclosing.map s1.renewed.loop) ys') :
    JumpCorrectIn (enclosing.map s.renewed.loop) (xs' ++ ys') := by
  obtain ⟨hnodup1, hnodup2, -⟩ := nodup_append.mp hnodup
  have hout1 := fun id hid hmem => hout id hid (mem_append_left _ hmem)
  have hcopy := h2 hnodup2 fun id hid hmem => hout id hid (mem_append_right _ hmem)
  -- the loop around the second piece is renewed as it was before the first
  have hsame : enclosing.map s1.renewed.loop = enclosing.map s.renewed.loop := by
    refine Option.map_congr fun id hid => ?_
    have himage := (renews_cloneAll s xs).spares (.loop id)
      (mt mem_loopsAll.mpr (hout1 id hid))
    rw [hs1]
    exact Identity.loop.inj himage
  rw [hsame] at hcopy
  exact jumpCorrectIn_append.mpr ⟨h1 hnodup1 hout1, hcopy⟩

/-- **A copy of what is correct is correct**, in the loop that stands for the one around the piece. -/
theorem Instruction.jumpCorrectIn_cloneAll (is : List Instruction) (enclosing : Option LoopId)
    (s : CloneState) (h : JumpCorrectIn enclosing is)
    (hnodup : (loopsAll is).Nodup) (hout : ∀ id ∈ enclosing, id ∉ loopsAll is) :
    JumpCorrectIn (enclosing.map s.renewed.loop) ((cloneAll is).run s).1 := by
  induction is using induction generalizing enclosing s with
  | nil => exact nofun
  | append xs ys ih1 ih2 =>
    obtain ⟨h1, h2⟩ := jumpCorrectIn_append.mp h
    rw [loopsAll_append] at hnodup hout
    rw [cloneAll_append]
    exact jumpCorrectIn_clone_append rfl hnodup hout (ih1 enclosing s h1)
      (ih2 enclosing _ h2)
  | leaf i hi =>
    cases i with
    | jump mode target =>
      have hjump : enclosing = some target := h ⟨enclosing, target⟩ (mem_singleton.mpr rfl)
      intro j hj
      rw [mem_singleton.mp hj, hjump]
      rfl
    | function | branch | loop => cases hi
    | declare | assign | ret | rvalue => exact nofun
  | branch _ _ _ ih1 ih2 =>
    obtain ⟨h1, h2⟩ := forall_mem_append.mp h
    have hblocks := jumpCorrectIn_clone_append rfl hnodup hout (ih1 enclosing s h1)
      (ih2 enclosing _ h2)
    rw [JumpCorrectIn, jumpsAll_append] at hblocks
    exact hblocks
  | loop id _ _ ih =>
    obtain ⟨hid, hnodup⟩ := nodup_cons.mp hnodup
    have hcopy := ih (some id) ((CloneM.newLoop id).run s).2 h hnodup
      fun id' hid' => Option.some.inj hid' ▸ hid
    rw [Option.map_some, Identity.loop.inj (CloneM.renewsTo_newLoop id s).image] at hcopy
    exact hcopy
  | function _ => exact nofun
  | overload _ _ _ _ _ _ ih1 ih2 =>
    obtain ⟨h1, h2⟩ := forall_mem_append.mp h
    obtain ⟨hnodup1, hnodup2, -⟩ := nodup_append.mp hnodup
    exact forall_mem_append.mpr ⟨ih1 none _ h1 hnodup1 nofun, ih2 none _ h2 hnodup2 nofun⟩

end

end Shading
