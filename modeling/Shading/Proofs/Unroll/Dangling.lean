/-
  Shading.Proofs.Unroll.Dangling — variables that unrolling leaves without a declaration.

  The blocks of loops have no scope of their own: what a body declares is known behind the loop.  But a
  loop that is replaced takes its declarations along, since each copy declares a variable of its own.
  So a use behind the loop is left without a declaration.
-/
import Shading.Proofs.Read.Tidy

namespace Shading

open List Instruction

/-! ## §1. Variables that dangle, and variables that escape -/

/-- Every variable that the module uses is declared in it. -/
def Closed (ir : List Instruction) : Prop :=
  ∀ v ∈ usedVars ir, v.id ∈ (declaredVars ir).map (·.id)

instance (ir : List Instruction) : Decidable (Closed ir) :=
  inferInstanceAs (Decidable (∀ v ∈ usedVars ir, v.id ∈ (declaredVars ir).map (·.id)))

/-- The module uses the variable and does not declare it. -/
def Dangles (ir : List Instruction) (number : Nat) : Prop :=
  number ∈ (usedVars ir).map (·.id) ∧ number ∉ (declaredVars ir).map (·.id)

/-- The module declares the variable, but nowhere outside of the loops that are replaced, and a use of it
    is left. -/
def Escapes (plan : UnrollPlan) (ir : List Instruction) (number : Nat) : Prop :=
  .brings (.var number) ∈ eventsAll ir
    ∧ .brings (.var number) ∉ leftAll plan ir
    ∧ .uses (.var number) ∈ leftAll plan ir

instance (plan : UnrollPlan) (ir : List Instruction) (number : Nat) :
    Decidable (Escapes plan ir number) := inferInstanceAs (Decidable (_ ∧ _ ∧ _))

/-- What a loop declares is used in it alone: the module as a whole does not use it more often than the
    body does. -/
def LoopsConfine (ir : List Instruction) : Prop :=
  ∀ body ∈ loopBodiesAll ir, ∀ v ∈ declaredVars body,
    ((usedVars ir).map (·.id)).count v.id = ((usedVars body).map (·.id)).count v.id

instance (ir : List Instruction) : Decidable (LoopsConfine ir) :=
  inferInstanceAs (Decidable (∀ body ∈ loopBodiesAll ir, ∀ v ∈ declaredVars body, _ = _))

variable {ir : List Instruction} {number : Nat}

theorem brings_mem_eventsAll :
    .brings (.var number) ∈ eventsAll ir ↔ number ∈ (declaredVars ir).map (·.id) := by
  rw [← eventsIn_walkAll 0 ir]
  exact brings_var_mem_eventsIn

theorem uses_mem_eventsAll :
    .uses (.var number) ∈ eventsAll ir ↔ number ∈ (usedVars ir).map (·.id) := by
  rw [← eventsIn_walkAll 0 ir, uses_mem_eventsIn, mem_map]
  simp only [Identity.var.injEq, eq_comm]
  rfl

theorem dangles_iff :
    Dangles ir number ↔ .uses (.var number) ∈ eventsAll ir
      ∧ .brings (.var number) ∉ eventsAll ir := by
  rw [uses_mem_eventsAll, brings_mem_eventsAll]
  rfl

/-- A module is closed if nothing dangles. -/
theorem closed_iff : Closed ir ↔ ∀ number, ¬ Dangles ir number := by
  unfold Closed Dangles
  constructor
  · rintro h number ⟨hused, hdeclared⟩
    obtain ⟨v, hv, rfl⟩ := mem_map.mp hused
    exact hdeclared (h v hv)
  · intro h v hv
    by_contra hdeclared
    exact h v.id ⟨mem_map_of_mem hv, hdeclared⟩

theorem count_uses :
    (eventsAll ir).count (.uses (.var number))
      = ((usedVars ir).map (·.id)).count number := by
  have hsteps (steps : List Step) : (eventsIn steps).count (.uses (.var number))
      = ((usedIn steps).map (·.id)).count number := by
    induction steps with
    | nil => rfl
    | cons step rest ih =>
      rw [eventsIn_cons, usedIn_cons, map_append, count_append, count_append, ih]
      congr 1
      obtain ⟨depth, visit⟩ := step
      cases visit <;> simp [Visit.event?, Visit.used?, count_singleton]
  rw [← eventsIn_walkAll 0 ir]
  exact hsteps (walkModule ir)

/-! ## §2. Escaping means leaving a loop -/

section

variable {number : Nat}

/-- How what is left of a piece lies in it.  If a declaration of the variable is not left, a loop of the
    piece declares it; if a use is left in spite of that, this use is not in the loop. -/
structure Remains (number : Nat) (es left : List Event) (bodies : List (List Instruction)) : Prop where
  within : ∀ e ∈ left, e ∈ es
  inside : ∀ body ∈ bodies, (eventsAll body).Sublist es
  declared : .brings (.var number) ∈ es → .brings (.var number) ∉ left →
    ∃ body ∈ bodies, .brings (.var number) ∈ eventsAll body
  outside : .brings (.var number) ∈ es → .brings (.var number) ∉ left →
    .uses (.var number) ∈ left →
    ∃ body ∈ bodies, .brings (.var number) ∈ eventsAll body
      ∧ (eventsAll body).count (.uses (.var number)) < es.count (.uses (.var number))

namespace Remains

variable {es left fs left' : List Event} {bodies bodies' : List (List Instruction)}

theorem refl (es : List Event) : Remains number es es [] :=
  ⟨fun _ => id, nofun, fun h hnot => absurd h hnot, fun h hnot => absurd h hnot⟩

/-- What remains of two parts remains of both. -/
theorem append (h : Remains number es left bodies) (h' : Remains number fs left' bodies') :
    Remains number (es ++ fs) (left ++ left') (bodies ++ bodies') where
  within := forall_mem_append.mpr ⟨fun e he => mem_append_left _ (h.within e he),
    fun e he => mem_append_right _ (h'.within e he)⟩
  inside := forall_mem_append.mpr
    ⟨fun body hbody => (h.inside body hbody).trans (sublist_append_left es fs),
      fun body hbody => (h'.inside body hbody).trans (sublist_append_right es fs)⟩
  declared := fun hbrings hgone => by
    obtain ⟨hgone1, hgone2⟩ := not_or.mp (mt mem_append.mpr hgone)
    rcases mem_append.mp hbrings with hbrings | hbrings
    · obtain ⟨body, hbody, hdeclares⟩ := h.declared hbrings hgone1
      exact ⟨body, mem_append_left _ hbody, hdeclares⟩
    · obtain ⟨body, hbody, hdeclares⟩ := h'.declared hbrings hgone2
      exact ⟨body, mem_append_right _ hbody, hdeclares⟩
  outside := fun hbrings hgone huses => by
    obtain ⟨hgone1, hgone2⟩ := not_or.mp (mt mem_append.mpr hgone)
    rw [count_append]
    -- the use is left in the piece that has the declaration, or in the other one
    rcases mem_append.mp hbrings with hbrings | hbrings
    · rcases mem_append.mp huses with huses | huses
      · obtain ⟨body, hbody, hdeclares, hcount⟩ := h.outside hbrings hgone1 huses
        exact ⟨body, mem_append_left _ hbody, hdeclares, by omega⟩
      · obtain ⟨body, hbody, hdeclares⟩ := h.declared hbrings hgone1
        have hinside := (h.inside body hbody).count_le (.uses (.var number))
        have hother := count_pos_iff.mpr (h'.within _ huses)
        exact ⟨body, mem_append_left _ hbody, hdeclares, by omega⟩
    · rcases mem_append.mp huses with huses | huses
      · obtain ⟨body, hbody, hdeclares⟩ := h'.declared hbrings hgone2
        have hinside := (h'.inside body hbody).count_le (.uses (.var number))
        have hother := count_pos_iff.mpr (h.within _ huses)
        exact ⟨body, mem_append_right _ hbody, hdeclares, by omega⟩
      · obtain ⟨body, hbody, hdeclares, hcount⟩ := h'.outside hbrings hgone2 huses
        exact ⟨body, mem_append_right _ hbody, hdeclares, by omega⟩

theorem wider (h : Remains number es left bodies) {body : List Instruction}
    (hbody : (eventsAll body).Sublist es) : Remains number es left (body :: bodies) where
  within := h.within
  inside := forall_mem_cons.mpr ⟨hbody, h.inside⟩
  declared := fun hbrings hgone => by
    obtain ⟨inner, hinner, hdeclares⟩ := h.declared hbrings hgone
    exact ⟨inner, mem_cons_of_mem _ hinner, hdeclares⟩
  outside := fun hbrings hgone huses => by
    obtain ⟨inner, hinner, hdeclares, hcount⟩ := h.outside hbrings hgone huses
    exact ⟨inner, mem_cons_of_mem _ hinner, hdeclares, hcount⟩

theorem loop {body : List Instruction} (h : Remains number (eventsAll body) left bodies)
    (plan : UnrollPlan) (id : LoopId) (controls : Controls) :
    Remains number (eventsAll [.loop id controls body]) (plan.leaves id controls left)
      (body :: bodies) := by
  have hbody : (eventsAll body).Sublist (eventsAll [.loop id controls body]) :=
    (sublist_append_right _ _).trans (sublist_cons_self _ _)
  cases hcount : plan.count? id with
  | none =>
    rw [UnrollPlan.leaves, hcount]
    exact ((refl (.brings (.loop id) :: mentions controls.uses)).append h).wider hbody
  | some n =>
    have hbrings : .brings (.var number) ∈ (eventsAll [.loop id controls body]) →
        .brings (.var number) ∈ eventsAll body := fun hmem => by
      rcases mem_cons.mp hmem with heq | hmem
      · cases heq
      · exact (mem_append.mp hmem).resolve_left (brings_notMem_mentions _ _)
    have hleaves {e : Event} (he : e ∈ plan.leaves id controls left) :
        e ∈ left ∧ .brings e.identity ∉ left :=
      (mem_foreignUses.mp ((UnrollPlan.mem_leaves hcount).mp he).2).2
    refine ⟨fun e he => hbody.subset (h.within e (hleaves he).1),
      forall_mem_cons.mpr ⟨hbody, fun inner hinner => (h.inside inner hinner).trans hbody⟩,
      fun hmem _ => ⟨body, mem_cons_self, hbrings hmem⟩, fun hmem _ huses => ?_⟩
    obtain ⟨hleft, hgone⟩ := hleaves huses
    obtain ⟨inner, hinner, hdeclares, hless⟩ := h.outside (hbrings hmem) hgone hleft
    exact ⟨inner, mem_cons_of_mem _ hinner, hdeclares, Nat.lt_of_lt_of_le hless (hbody.count_le _)⟩

end Remains

/-- What remains of a block after unrolling. -/
theorem Instruction.remains_leftAll (plan : UnrollPlan) (is : List Instruction) :
    Remains number (eventsAll is) (leftAll plan is)
      (loopBodiesAll is) := by
  induction is using induction with
  | nil | function => exact .refl _
  | append xs ys ih1 ih2 =>
    rw [eventsAll_append, leftAll_append, loopBodiesAll_append]
    exact ih1.append ih2
  | leaf i h =>
    cases i with
    | function | branch | loop => cases h
    | declare | assign | ret | jump | rvalue => exact .refl _
  | branch condition _ _ ih1 ih2 =>
    exact ((Remains.refl (mentions condition.uses)).append ih1).append ih2
  | loop id controls _ ih => exact ih.loop plan id controls
  | overload _ _ parameters _ _ _ ih1 ih2 =>
    exact ((Remains.refl (parameters.map fun v => .brings (.var v.id))).append ih1).append ih2

end

/-- **A variable that escapes is declared in a loop and used outside of it.** -/
theorem Escapes.declared_in_loop {plan : UnrollPlan} (h : Escapes plan ir number) :
    ∃ body ∈ loopBodiesAll ir, ∃ v ∈ declaredVars body, v.id = number
      ∧ ((usedVars body).map (·.id)).count number < ((usedVars ir).map (·.id)).count number := by
  obtain ⟨hdeclared, hgone, hused⟩ := h
  obtain ⟨body, hbody, hbrings, hcount⟩ :=
    (remains_leftAll plan ir).outside hdeclared hgone hused
  obtain ⟨v, hv, hid⟩ := mem_map.mp (brings_mem_eventsAll.mp hbrings)
  rw [count_uses, count_uses] at hcount
  exact ⟨body, hbody, v, hv, hid, hcount⟩

theorem LoopsConfine.not_escapes (h : LoopsConfine ir) (plan : UnrollPlan) (number : Nat) :
    ¬ Escapes plan ir number := by
  intro hescapes
  obtain ⟨body, hbody, v, hv, rfl, hcount⟩ := hescapes.declared_in_loop
  have hsame := h body hbody v hv
  omega

/-! ## §3. Modules that are read and unrolled -/

/-- **What dangles after unrolling is what escapes from the loops that are replaced.**  Let a module have
    been read in which every variable that is used is declared, and let its loops have entries.  Then
    unrolling succeeds, and it leaves without a declaration exactly the variables that escape: those that
    are declared only in loops that are replaced, and of which a use is left.  There are none if the loops
    keep to themselves what they declare. -/
theorem unrollLoops_dangles_iff (plan : UnrollPlan) (scan : Bool) (u : CompilationUnit)
    (text : String) (ir : List Instruction) (howned : u.Owned)
    (hread : (readModule scan u text).outcome = .ok ir) (hclosed : Closed ir)
    (hentries : ∀ id ∈ loopIds ir, (plan.analysis.find? id).isSome) :
    ∃ out, (unrollLoops plan (readModule scan u text).after.storage ir).outcome = .ok out
      ∧ (∀ number, Dangles out number ↔ Escapes plan ir number)
      ∧ (LoopsConfine ir → Closed out) := by
  obtain ⟨hissued, htidy⟩ := tidyBodies_readModule howned hread
  obtain ⟨out, s', hresult, hrun⟩ := exists_unrollRun
    (s := (readModule scan u text).after.storage) hentries
  obtain ⟨hbecomes, -⟩ := hrun.unfolds hissued htidy
  have hdangles (number : Nat) : Dangles out number ↔ Escapes plan ir number := by
    rw [dangles_iff]
    constructor
    · rintro ⟨hused, hnot⟩
      -- what is new is declared where it is used
      have hknown := not_imp_comm.mp (hbecomes.settles (.var number) hused) hnot
      have hleft := (hbecomes.keeps (.uses (.var number)) hknown).mp hused
      have hold := uses_mem_eventsAll.mp (hbecomes.within _ hleft)
      obtain ⟨v, hv, rfl⟩ := mem_map.mp hold
      exact ⟨brings_mem_eventsAll.mpr (hclosed v hv),
        mt (hbecomes.keeps (.brings (.var v.id)) hknown).mpr hnot, hleft⟩
    · rintro ⟨hdeclared, hgone, hleft⟩
      have hknown := hissued _ hdeclared
      exact ⟨(hbecomes.keeps (.uses (.var number)) hknown).mpr hleft,
        mt (hbecomes.keeps (.brings (.var number)) hknown).mp hgone⟩
  rw [hresult]
  refine ⟨out, rfl, hdangles, fun hconfine => closed_iff.mpr fun number hdangle => ?_⟩
  exact hconfine.not_escapes plan number ((hdangles number).mp hdangle)

/-- A variable of a loop that is used behind it. -/
def usedBehindLoop : String :=
  "(declare()int y)(loop()()()()((declare()int x)))(assign()(x)(var_ref y)(var_ref x))"

/-- A variable of a loop that is used in it. -/
def usedInLoop : String :=
  "(declare()int y)(loop()()()()((declare()int x)(assign()(x)(var_ref y)(var_ref x))))"

/-- One round of the first loop. -/
def oneRound : UnrollPlan := ⟨⟨[(⟨0⟩, ⟨1, 0⟩)]⟩, 32⟩

/-- The variable that is used behind the loop dangles, although every variable was declared before; the
    one that is used in the loop does not. -/
theorem unrollLoops_dangles_usedBehindLoop :
    (∃ ir out, (readModule true .fresh usedBehindLoop).outcome = .ok ir ∧ Closed ir
      ∧ (unrollLoops oneRound (readModule true .fresh usedBehindLoop).after.storage ir).outcome = .ok out
      ∧ Dangles out 1)
    ∧ ∃ ir out, (readModule true .fresh usedInLoop).outcome = .ok ir
      ∧ (unrollLoops oneRound (readModule true .fresh usedInLoop).after.storage ir).outcome = .ok out
      ∧ Closed out := by
  constructor
  · obtain ⟨ir, hread, hclosed, hentries, hescapes⟩ : ∃ ir,
        (readModule true .fresh usedBehindLoop).outcome = .ok ir ∧ Closed ir
          ∧ (∀ id ∈ loopIds ir, (oneRound.analysis.find? id).isSome) ∧ Escapes oneRound ir 1 :=
      exists_ok_of_decide (by decide +kernel)
    obtain ⟨out, hout, hdangles, -⟩ := unrollLoops_dangles_iff oneRound true .fresh usedBehindLoop ir
      owned_fresh hread hclosed hentries
    exact ⟨ir, out, hread, hclosed, hout, (hdangles 1).mpr hescapes⟩
  · obtain ⟨ir, hread, hclosed, hentries, hconfine⟩ : ∃ ir,
        (readModule true .fresh usedInLoop).outcome = .ok ir ∧ Closed ir
          ∧ (∀ id ∈ loopIds ir, (oneRound.analysis.find? id).isSome) ∧ LoopsConfine ir :=
      exists_ok_of_decide (by decide +kernel)
    obtain ⟨out, hout, -, hout'⟩ := unrollLoops_dangles_iff oneRound true .fresh usedInLoop ir
      owned_fresh hread hclosed hentries
    exact ⟨ir, out, hread, hout, hout' hconfine⟩

end Shading
