/-
  Shading.Proofs.Unroll.Meaning — unrolling and what the instructions do.

  A loop is replaced by copies of its body alone.  Its counter is gone: no copy sets it, none moves it
  on.  So the values of the other variables stay as long as nothing but the loop's own controls looks
  at the counter, and as long as the body keeps to itself what it declares.  `Instruction.respectsAll`
  checks that, for all loops that are replaced at once.
-/
import Shading.Proofs.Unroll.Copies
import Shading.Proofs.Unroll.Expansion

namespace Shading

open List Instruction

/-! ## §1. Loops that are replaced -/

mutual

/-- The controls and the bodies of the loops that the plan replaces in an instruction. -/
def Instruction.replaced (plan : UnrollPlan) : Instruction → List (Controls × List Instruction)
  | .branch _ thenBody elseBody =>
    replacedAll plan thenBody ++ replacedAll plan elseBody
  | .loop id controls body =>
    (if (plan.count? id).isSome then [(controls, body)] else [])
      ++ replacedAll plan body
  | _ => []

/-- The controls and the bodies of the loops that the plan replaces in a list. -/
def Instruction.replacedAll (plan : UnrollPlan) :
    List Instruction → List (Controls × List Instruction)
  | [] => []
  | i :: rest => replaced plan i ++ replacedAll plan rest

end

/-- What instructions may refer to. -/
structure Sight where
  /-- What has been issued before unrolling. -/
  storage : Storage
  replaced : List (Controls × List Instruction)
  /-- Do the instructions stand in a loop that is replaced? -/
  inner : Bool := false
  /-- What has been declared on the way. -/
  known : List Nat := []
  /-- The loops around the instructions, from the innermost one that is replaced. -/
  loops : List LoopId := []

namespace Sight

/-- Does a loop that is replaced count with the variable? -/
def isCounter (c : Sight) (number : Nat) : Bool :=
  c.replaced.any fun l => l.1.counter.any (·.id == number)

/-- Is the variable declared in a loop that is replaced? -/
def isInside (c : Sight) (number : Nat) : Bool :=
  c.replaced.any fun l => decide (Identity.var number ∈ identitiesAll l.2)

/-- May the instructions refer to it?  Not to a counter, not to a variable of a loop that is replaced
    before its declaration, and not out of such a loop by a jump. -/
def sees (c : Sight) : Identity → Bool
  | .var number =>
    decide (number < c.storage.vars.issued) && !c.isCounter number
      && (!c.isInside number || c.known.contains number)
  | .loop id => !c.inner || (c.loops.contains id && decide (id.number < c.storage.loops.issued))

/-- Everything in sight stands for itself. -/
def same (c : Sight) : Pairing := fun a b => a = b ∧ c.sees a = true

/-- After a declaration. -/
def declare (c : Sight) (v : Var) : Sight := { c with known := v.id :: c.known }

/-- In the body of a loop that stays. -/
def enter (c : Sight) (id : LoopId) : Sight := { c with loops := id :: c.loops }

/-- In the body of a loop that is replaced. -/
def inside (c : Sight) : Sight := { c with inner := true, loops := [] }

/-- After an instruction. -/
def after (c : Sight) : Instruction → Sight
  | .declare v => c.declare v
  | _ => c

/-- After the instructions. -/
def afterAll (c : Sight) (is : List Instruction) : Sight := is.foldl after c

/-- Is it new, as it has to be in a loop that is replaced? -/
def admits (c : Sight) (a : Identity) : Bool := !c.inner || !c.sees a

end Sight

mutual

/-- Does the instruction refer only to what is in sight, and does it, in a loop that is replaced, bring
    along only what is not? -/
def Instruction.respects (plan : UnrollPlan) (c : Sight) : Instruction → Bool
  | .declare v => c.admits (.var v.id)
  | .function name signatures =>
    (identitiesAll [.function name signatures]).all c.admits
  | .assign a => a.uses.all fun v => c.sees (.var v.id)
  | .ret value => value.all fun r => r.uses.all fun v => c.sees (.var v.id)
  | .branch condition thenBody elseBody =>
    condition.uses.all (fun v => c.sees (.var v.id)) && respectsAll plan c thenBody
      && respectsAll plan c elseBody
  | .loop id controls body =>
    if (plan.count? id).isSome then
      controls.counter.all (fun v => !c.sees (.var v.id))
        && respectsAll plan c.inside body
    else
      controls.uses.all (fun v => c.sees (.var v.id)) && c.admits (.loop id)
        && decide (id.number < c.storage.loops.issued)
        && respectsAll plan (c.enter id) body
  | .jump _ target => c.sees (.loop target)
  | .rvalue r => r.uses.all fun v => c.sees (.var v.id)

/-- The same for the instructions from the first to the last. -/
def Instruction.respectsAll (plan : UnrollPlan) (c : Sight) : List Instruction → Bool
  | [] => true
  | i :: rest => respects plan c i && respectsAll plan (c.after i) rest

end

namespace Sight

variable {c : Sight} {a : Identity}

theorem same_apart (c : Sight) (a : Identity) : c.same.Apart a a := by
  rintro x _ ⟨rfl, -⟩
  rfl

theorem unpaired_of_admits (h : c.admits a = true) (hinner : c.inner = true) :
    c.same.Unpaired a a := by
  rintro x _ ⟨rfl, hx⟩
  have hne : x ≠ a := by
    rintro rfl
    rw [admits, hinner, hx] at h
    cases h
  exact ⟨hne, hne⟩

theorem names_of_all {uses : List Var} (h : uses.all (fun v => c.sees (.var v.id)) = true) :
    c.same.Names (fun v => v) uses := fun v hv =>
  ⟨rfl, all_eq_true.mp h v hv⟩

theorem same_declare_grows (c : Sight) (v : Var) :
    ∀ a b, c.same a b → (c.declare v).same a b := by
  rintro a _ ⟨rfl, ha⟩
  refine ⟨rfl, ?_⟩
  cases a with
  | loop id => exact ha
  | var number =>
    simp only [sees, Bool.and_eq_true, Bool.or_eq_true] at ha ⊢
    exact ⟨ha.1, ha.2.imp_right fun h =>
      contains_iff_mem.mpr (mem_cons_of_mem _ (contains_iff_mem.mp h))⟩

theorem same_declare_adds (c : Sight) (v : Var) :
    ∀ a b, (c.declare v).same a b → c.same a b ∨ (a = .var v.id ∧ b = .var v.id) := by
  rintro a _ ⟨rfl, ha⟩
  cases a with
  | loop id => exact .inl ⟨rfl, ha⟩
  | var number =>
    by_cases hnumber : number = v.id
    · rw [hnumber]
      exact .inr ⟨rfl, rfl⟩
    · refine .inl ⟨rfl, ?_⟩
      simp only [sees, Bool.and_eq_true, Bool.or_eq_true] at ha ⊢
      refine ⟨ha.1, ha.2.imp_right fun h => ?_⟩
      rcases mem_cons.mp (contains_iff_mem.mp h) with heq | hmem
      · exact absurd heq hnumber
      · exact contains_iff_mem.mpr hmem

/-- Entering a loop pairs it with itself. -/
theorem same_enter {id : LoopId} (hissued : id.number < c.storage.loops.issued) :
    (c.enter id).same = c.same.add (.loop id) (.loop id) := by
  funext a b
  apply propext
  constructor
  · rintro ⟨rfl, ha⟩
    cases a with
    | var number => exact .inl ⟨rfl, ha⟩
    | loop other =>
      by_cases hother : other = id
      · -- the loop itself is what comes into sight
        rw [hother]
        exact .inr ⟨rfl, rfl⟩
      · refine .inl ⟨rfl, ?_⟩
        have hcontains : (id :: c.loops).contains other = c.loops.contains other := by
          rw [contains_cons, beq_false_of_ne hother, Bool.false_or]
        change (!c.inner || ((id :: c.loops).contains other && _)) = true at ha
        rwa [hcontains] at ha
  · rintro (⟨rfl, ha⟩ | ⟨rfl, rfl⟩)
    · refine ⟨rfl, ?_⟩
      cases a with
      | var number => exact ha
      | loop other =>
        simp only [sees, enter, Bool.or_eq_true, Bool.and_eq_true] at ha ⊢
        exact ha.imp_right fun h => ⟨contains_iff_mem.mpr
          (mem_cons_of_mem _ (contains_iff_mem.mp h.1)), h.2⟩
    · exact ⟨rfl, by simp [sees, enter, hissued]⟩

theorem same_inside (c : Sight) : c.inside.same = c.same.vars := by
  funext a b
  apply propext
  constructor
  · rintro ⟨rfl, ha⟩
    cases a with
    | var number => exact ⟨⟨rfl, ha⟩, number, rfl⟩
    | loop id => cases ha
  · rintro ⟨⟨rfl, ha⟩, number, rfl⟩
    exact ⟨rfl, ha⟩

theorem storage_afterAll (c : Sight) (is : List Instruction) :
    (c.afterAll is).storage = c.storage := by
  induction is generalizing c with
  | nil => rfl
  | cons i rest ih => cases i <;> exact ih _

theorem inner_afterAll (c : Sight) (is : List Instruction) : (c.afterAll is).inner = c.inner := by
  induction is generalizing c with
  | nil => rfl
  | cons i rest ih => cases i <;> exact ih _

theorem has_of_sees (hinner : c.inner = true) (h : c.sees a = true) : c.storage.Has a := by
  cases a with
  | var number =>
    simp only [sees, Bool.and_eq_true, decide_eq_true_eq] at h
    exact h.1.1
  | loop id =>
    simp only [sees, hinner, Bool.not_true, Bool.false_or, Bool.and_eq_true,
      decide_eq_true_eq] at h
    exact h.2

end Sight

/-! ## §2. What unrolling issues -/

/-- The second storage has issued what the first has. -/
def Storage.Extends (s' s : Storage) : Prop := ∀ a, s.Has a → s'.Has a

theorem Storage.Extends.refl (s : Storage) : s.Extends s := fun _ h => h

variable {s s' : Storage}

theorem Storage.Extends.trans {s'' : Storage} (h' : s''.Extends s') (h : s'.Extends s) :
    s''.Extends s := fun a ha => h' a (h a ha)

/-- What takes a list's place brings along what the list does, or what is new. -/
structure Issues (s s' : Storage) (old new : List Identity) : Prop where
  grows : s'.Extends s
  fresh : ∀ a ∈ new, a ∈ old ∨ ¬ s.Has a

theorem Issues.refl (s : Storage) (ids : List Identity) : Issues s s ids ids :=
  ⟨.refl s, fun _ => .inl⟩

theorem Issues.append {s'' : Storage} {old new old' new' : List Identity} (h : Issues s s' old new)
    (h' : Issues s' s'' old' new') :
    Issues s s'' (old ++ old') (new ++ new') where
  grows := h'.grows.trans h.grows
  fresh := fun a ha => by
    rcases mem_append.mp ha with ha | ha
    · exact (h.fresh a ha).imp_left (mem_append_left _)
    · exact (h'.fresh a ha).imp (mem_append_right _) fun hs' hs => hs' (h.grows a hs)

/-- The block is a copy of the body, made when the storage had issued at least what `s` has. -/
def ClonedFrom (s : Storage) (body block : List Instruction) : Prop :=
  ∃ t : Storage, t.Extends s ∧ block = ((cloneAll body).run ⟨t, .empty⟩).1

variable {body : List Instruction}

theorem ClonedFrom.mono {block : List Instruction} (h : ClonedFrom s' body block)
    (hgrows : s'.Extends s) : ClonedFrom s body block := by
  obtain ⟨t, ht, rfl⟩ := h
  exact ⟨t, ht.trans hgrows, rfl⟩

section

variable {plan : UnrollPlan}

theorem not_has_of_cloned {blocks : List (List Instruction)}
    (h : ∀ block ∈ blocks, ClonedFrom s body block) :
    ∀ a ∈ identitiesAll blocks.flatten, ¬ s.Has a := by
  induction blocks with
  | nil => exact nofun
  | cons block rest ih =>
    rw [flatten_cons, identitiesAll_append]
    obtain ⟨⟨t, ht, rfl⟩, hrest⟩ := forall_mem_cons.mp h
    refine forall_mem_append.mpr ⟨fun a ha hs => ?_, ih hrest⟩
    exact (renews_cloneAll ⟨t, .empty⟩ body).fresh a ha (ht a hs)

theorem CopyRun.cloned {t t' : Storage} {blocks : List (List Instruction)}
    (h : CopyRun body t blocks t') : t'.Extends t ∧ ∀ block ∈ blocks, ClonedFrom t body block := by
  induction h with
  | done t => exact ⟨.refl t, nofun⟩
  | @copy t t' blocks rest ih =>
    obtain ⟨hextends, hcloned⟩ := ih
    have hgrows := (renews_cloneAll ⟨t, .empty⟩ body).grows
    refine ⟨hextends.trans hgrows, forall_mem_cons.mpr ⟨⟨t, .refl t, rfl⟩, ?_⟩⟩
    exact fun block hblock => (hcloned block hblock).mono hgrows

/-- A run of the unrolling issues new identities only. -/
theorem UnrollRun.issues {is is' : List Instruction} {s s' : UnrollState}
    (h : UnrollRun plan is s is' s') :
    Issues s.storage s'.storage (identitiesAll is) (identitiesAll is') := by
  induction h with
  | nil | leaf | function => exact .refl _ _
  | append first rest ih1 ih2 =>
    rw [identitiesAll_append, identitiesAll_append]
    exact ih1.append ih2
  | branch thenRun elseRun ih1 ih2 => exact ih1.append ih2
  | overload bodyRun rest ih1 ih2 => exact ((Issues.refl _ _).append ih1).append ih2
  | kept entry count bodyRun ih => exact (Issues.refl _ [.loop _]).append ih
  | replaced entry count bodyRun copies ih =>
    -- copies bring along new ones only
    obtain ⟨hgrows, hcloned⟩ := copies.cloned
    refine ⟨hgrows.trans ih.grows, fun a ha => .inr fun hs => ?_⟩
    exact not_has_of_cloned hcloned a ha (ih.grows a hs)

/-! ## §3. Unrolling makes copies -/

theorem Copies.clone_same {c : Sight} {is is' : List Instruction} {t : Storage}
    (h : Copies plan true c.inside.same is is') (ht : t.Extends c.storage) :
    Copies plan true c.inside.same is ((cloneAll is').run ⟨t, .empty⟩).1 := by
  have hissued : c.inside.same.IssuedIn ⟨t, .empty⟩ := by
    rintro a _ ⟨rfl, ha⟩
    rw [Renaming.image_empty]
    exact ht a (Sight.has_of_sees (c := c.inside) rfl ha)
  have hcopy := h.clone hissued
  rwa [Pairing.image_empty] at hcopy

theorem UnrollPlan.count?_eq {id : LoopId} {info : LoopInfo}
    (entry : plan.analysis.find? id = some info) : plan.count? id = plan.copies? info := by
  rw [UnrollPlan.count?, entry]
  rfl

/-- An instruction without bodies is its own copy. -/
theorem copies_leaf {c : Sight} {i : Instruction} {is is' : List Instruction}
    (isLeaf : i.isLeaf = true) (h : i.respects plan c = true)
    (rest : Copies plan c.inner (c.after i).same is is') :
    Copies plan c.inner c.same (i :: is) (i :: is') := by
  cases i with
  | declare v =>
    exact .declare (c.same_apart _) (Sight.unpaired_of_admits h) rfl (c.same_declare_grows v)
      (c.same_declare_adds v) rest
  | assign a =>
    have hcopies := Copies.assign (Sight.names_of_all h) rest
    rwa [Assignment.rename_id] at hcopies
  | ret value =>
    have hnames : ∀ r ∈ value, c.same.Names (fun v => v) r.uses := by
      rintro r rfl
      exact Sight.names_of_all h
    have hcopies := Copies.ret hnames rest
    rwa [Rvalue.renameOption_id] at hcopies
  | jump mode target => exact .jump ⟨rfl, h⟩ rest
  | rvalue r =>
    have hcopies := Copies.rvalue (Sight.names_of_all h) rest
    rwa [Rvalue.rename_id] at hcopies
  | function | branch | loop => cases isLeaf

theorem Instruction.respectsAll_append (plan : UnrollPlan) (c : Sight) (xs ys : List Instruction) :
    respectsAll plan c (xs ++ ys)
      = (respectsAll plan c xs && respectsAll plan (c.afterAll xs) ys) := by
  induction xs generalizing c with
  | nil => rfl
  | cons i rest ih =>
    rw [cons_append, respectsAll, respectsAll, ih, Bool.and_assoc]
    rfl

theorem UnrollRun.copies_function {name : String} {sigs sigs' : List Signature} {s s' : UnrollState}
    {js js' : List Instruction} {c : Sight}
    (h : UnrollRun plan [.function name sigs] s [.function name sigs'] s')
    (hgrows : s.storage.Extends c.storage)
    (hrespects : respectsAll plan c [.function name sigs] = true)
    (rest : Copies plan c.inner c.same js js') :
    Copies plan c.inner c.same (.function name sigs :: js) (.function name sigs' :: js') := by
  refine .function (fun hinner => ?_) rest
  rintro a _ ⟨rfl, ha⟩ hmem
  -- what the bodies bring along was there before, or it is new
  rcases h.issues.fresh a hmem with hold | hnew
  · have hadmits := all_eq_true.mp (Bool.and_eq_true_iff.mp hrespects).1 a hold
    exact (Sight.unpaired_of_admits hadmits hinner a a ⟨rfl, ha⟩).1 rfl
  · exact hnew (hgrows a (Sight.has_of_sees hinner ha))

/-- **What unrolling makes of a list is a copy of it**, in which everything that is in sight stands for
    itself.  What comes after the list sees what the list declares. -/
theorem UnrollRun.copies {is is' : List Instruction} {s s' : UnrollState}
    (h : UnrollRun plan is s is' s') {c : Sight} (hgrows : s.storage.Extends c.storage)
    (hrespects : respectsAll plan c is = true) {js js' : List Instruction}
    (hjs : Copies plan c.inner (c.afterAll is).same js js') :
    Copies plan c.inner c.same (is ++ js) (is' ++ js') := by
  induction h generalizing c js js' with
  | nil => exact hjs
  | @append xs _ _ _ _ _ _ first rest ih1 ih2 =>
    rw [respectsAll_append, Bool.and_eq_true] at hrespects
    rw [Sight.afterAll, foldl_append, ← c.inner_afterAll xs] at hjs
    have hgrows1 := first.issues.grows.trans hgrows
    rw [← c.storage_afterAll xs] at hgrows1
    have hrest := ih2 hgrows1 hrespects.2 hjs
    rw [c.inner_afterAll] at hrest
    rw [append_assoc, append_assoc]
    exact ih1 hgrows hrespects.1 hrest
  | leaf isLeaf s => exact copies_leaf isLeaf (Bool.and_eq_true_iff.mp hrespects).1 hjs
  | branch thenRun elseRun ih1 ih2 =>
    rw [respectsAll, respects, Bool.and_eq_true, Bool.and_eq_true,
      Bool.and_eq_true] at hrespects
    obtain ⟨⟨⟨hcondition, hthen⟩, helse⟩, -⟩ := hrespects
    have h1 := ih1 hgrows hthen .nil
    have h2 := ih2 (thenRun.issues.grows.trans hgrows) helse .nil
    rw [append_nil, append_nil] at h1 h2
    have hcopies := Copies.branch (Sight.names_of_all hcondition) h1 h2 hjs
    rwa [Rvalue.rename_id] at hcopies
  | function name s => exact (UnrollRun.function name s).copies_function hgrows hrespects hjs
  | overload bodyRun rest => exact (bodyRun.overload rest).copies_function hgrows hrespects hjs
  | kept entry count bodyRun ih =>
    rw [respectsAll, respects, UnrollPlan.count?_eq entry, count] at hrespects
    simp only [Option.isSome_none, Bool.false_eq_true, if_false, Bool.and_eq_true,
      decide_eq_true_eq] at hrespects
    obtain ⟨⟨⟨⟨huses, hadmits⟩, hissued⟩, hbody⟩, -⟩ := hrespects
    have hcopies := ih (c := c.enter _) hgrows hbody .nil
    rw [append_nil, append_nil, Sight.same_enter hissued] at hcopies
    have hloop := Copies.loop (c.same_apart _) (Sight.unpaired_of_admits hadmits)
      (Sight.names_of_all huses) hcopies hjs
    rwa [Controls.rename_id] at hloop
  | replaced entry count bodyRun copies ih =>
    rw [respectsAll, respects, UnrollPlan.count?_eq entry, count] at hrespects
    simp only [Option.isSome_some, if_true, Bool.and_eq_true] at hrespects
    obtain ⟨⟨hcounter, hbody⟩, -⟩ := hrespects
    obtain ⟨hgrows2, hcloned⟩ := copies.cloned
    have hgrows1 := bodyRun.issues.grows.trans hgrows
    refine .unrolled ((UnrollPlan.count?_eq entry).trans count) ?_ ?_ ?_ hjs
    · -- the counter is out of sight
      rintro v hv b ⟨-, hsees⟩
      rw [Option.mem_def.mp hv, Option.all_some, hsees] at hcounter
      cases hcounter
    · -- each block is a copy of a copy
      intro block hblock
      obtain ⟨t, ht, rfl⟩ := hcloned block hblock
      have hcopies := ih (c := c.inside) hgrows hbody .nil
      rw [append_nil, append_nil] at hcopies
      rw [← c.same_inside]
      exact hcopies.clone_same (ht.trans hgrows1)
    · -- what is in sight had been issued before the blocks were made
      rintro hinner a _ ⟨rfl, ha⟩ hmem
      exact not_has_of_cloned hcloned a hmem (hgrows1 a (Sight.has_of_sees hinner ha))

end

/-! ## §4. Modules -/

/-- The variable has been issued, no loop that is replaced counts with it, and none declares it. -/
def UnrollPlan.Spares (plan : UnrollPlan) (s : Storage) (ir : List Instruction) (number : Nat) :
    Prop :=
  number < s.vars.issued ∧ ∀ l ∈ replacedAll plan ir,
    (∀ v ∈ l.1.counter, v.id ≠ number) ∧ Identity.var number ∉ identitiesAll l.2

/-- What a module may refer to. -/
def Sight.outside (plan : UnrollPlan) (s : Storage) (ir : List Instruction) : Sight where
  storage := s
  replaced := replacedAll plan ir

theorem Sight.outside_sees {plan : UnrollPlan} {ir : List Instruction} {number : Nat} :
    (Sight.outside plan s ir).sees (.var number) = true ↔ plan.Spares s ir number := by
  have hcounter : (Sight.outside plan s ir).isCounter number = false
      ↔ ∀ l ∈ replacedAll plan ir, ∀ v ∈ l.1.counter, v.id ≠ number := by
    simp only [Sight.isCounter, Sight.outside, any_eq_false, Option.any_eq_true, beq_iff_eq,
      not_exists, not_and, Option.mem_def, ne_eq]
  have hinside : (Sight.outside plan s ir).isInside number = false
      ↔ ∀ l ∈ replacedAll plan ir,
        Identity.var number ∉ identitiesAll l.2 := by
    simp only [Sight.isInside, Sight.outside, any_eq_false, decide_eq_true_eq]
  have hknown : (Sight.outside plan s ir).known.contains number = false := rfl
  rw [Sight.sees, hknown, Bool.or_false, Bool.and_eq_true, Bool.and_eq_true, Bool.not_eq_true',
    Bool.not_eq_true', decide_eq_true_eq, hcounter, hinside]
  constructor
  · rintro ⟨⟨hissued, hcounter⟩, hinside⟩
    exact ⟨hissued, fun l hl => ⟨hcounter l hl, hinside l hl⟩⟩
  · rintro ⟨hissued, h⟩
    exact ⟨⟨hissued, fun l hl => (h l hl).1⟩, fun l hl => (h l hl).2⟩

/-- **Unrolling keeps what a module does to the variables outside.**  Let every loop of a module have
    an entry, and let each loop that is replaced make the iterations that its entry has for it.  Let
    the module look at the counter of such a loop, and at what its body declares, only where
    `respectsAll` allows it.  If the module ends, then so does what unrolling makes of it, in the same
    way and with the same values in all variables that are neither counters of the replaced loops nor
    declared in them. -/
theorem unrollLoops_runAll {V : Type} (ev : Evaluation V) (plan : UnrollPlan) (s : Storage)
    (ir : List Instruction) (fuel : Nat) (σ : Valuation V) (r : Run V)
    (hentries : ∀ id ∈ loopIds ir, (plan.analysis.find? id).isSome)
    (hrespects : Instruction.respectsAll plan (.outside plan s ir) ir = true)
    (hshared : ∀ n ∈ ev.shared, plan.Spares s ir n)
    (hrun : Instruction.runAll ev fuel ir σ = some r) (hexact : plan.Exact r.counts) :
    ∃ out r', (unrollLoops plan s ir).outcome = .ok out
      ∧ Instruction.runAll ev fuel out σ = some r'
      ∧ r'.outcome = r.outcome
      ∧ ∀ n, plan.Spares s ir n → r'.values n = r.values n := by
  obtain ⟨out, s', hresult, hunroll⟩ := exists_unrollRun (s := s) hentries
  have hcopies := hunroll.copies (c := .outside plan s ir) (.refl s) hrespects .nil
  rw [append_nil, append_nil] at hcopies
  -- outside of the module everything in sight stands for itself
  have hfits : (Sight.outside plan s ir).same.Fits ev.shared := by
    refine ⟨?_, fun n hn => ⟨rfl, Sight.outside_sees.mpr (hshared n hn)⟩⟩
    rintro a _ c _ ⟨rfl, -⟩ ⟨rfl, -⟩
    rfl
  have hrel : (Sight.outside plan s ir).same.Related σ σ := by
    rintro x _ ⟨hxy, -⟩
    cases hxy
    rfl
  obtain ⟨r', hrun', hrel', halike⟩ := hcopies.follows hfits fuel σ σ r hrel hrun hexact
  refine ⟨out, r', by rw [hresult], hrun', ?_, fun n hn => hrel' n n ⟨rfl, Sight.outside_sees.mpr hn⟩⟩
  generalize r.outcome = o, r'.outcome = o' at halike
  cases halike with
  | next | ret => rfl
  | jump pair =>
    obtain ⟨heq, -⟩ := pair
    cases heq
    rfl

/-! ## §5. Integers -/

/-- The integer that a constant begins with. -/
def Constant.integer : Constant → Int
  | ⟨_, .int values⟩ => values[0].toInt
  | _ => 0

mutual

/-- Variables, integer constants and sums. -/
def Rvalue.integer (σ : Valuation Int) : Rvalue → Int
  | .expression op _ operands => if op = .add then Rvalue.integerSum σ operands else 0
  | .dereference (.var v) => σ v.id
  | .constant c => c.integer
  | _ => 0

def Rvalue.integerSum (σ : Valuation Int) : List Rvalue → Int
  | [] => 0
  | r :: rest => Rvalue.integer σ r + Rvalue.integerSum σ rest

end

mutual

theorem Rvalue.integer_rename {f : Var → Var} {σ τ : Valuation Int} (depth : Nat) :
    ∀ r : Rvalue, (∀ v ∈ usedIn (r.walk depth), τ (f v).id = σ v.id) →
      (r.rename f).integer τ = r.integer σ
  | .expression op _ operands, h => by
    rw [Rvalue.rename, Rvalue.integer, Rvalue.integer,
      Rvalue.integerSum_rename (depth + 1) operands h]
  | .swizzle .., _ => rfl
  | .dereference (.var v), h => h v (mem_singleton.mpr rfl)
  | .dereference (.index ..), _ => rfl
  | .dereference (.field ..), _ => rfl
  | .constant _, _ => rfl
  | .call .., _ => rfl
  | .texture _, _ => rfl

theorem Rvalue.integerSum_rename {f : Var → Var} {σ τ : Valuation Int} (depth : Nat) :
    ∀ rs : List Rvalue, (∀ v ∈ usedIn (Rvalue.walkAll depth rs), τ (f v).id = σ v.id) →
      Rvalue.integerSum τ (Rvalue.renameAll f rs) = Rvalue.integerSum σ rs
  | [], _ => rfl
  | r :: rest, h => by
    rw [Rvalue.walkAll, usedIn_append] at h
    obtain ⟨hr, hrest⟩ := forall_mem_append.mp h
    rw [Rvalue.renameAll, Rvalue.integerSum, Rvalue.integerSum, Rvalue.integer_rename depth r hr,
      Rvalue.integerSum_rename depth rest hrest]

end

/-- Assignments to variables, without a condition. -/
def Assignment.integer (a : Assignment) (σ : Valuation Int) : Valuation Int :=
  match a.condition, a.lhs with
  | none, .var v => σ.set v (a.rhs.integer σ)
  | _, _ => σ

theorem Assignment.integer_rename (a : Assignment) {f : Var → Var} {σ τ : Valuation Int}
    (hcarries : σ.Carries a.uses [] f τ) {x y : Nat} (htwins : Twins a.uses [] f x y)
    (hxy : τ y = σ x) : (a.rename f).integer τ y = a.integer σ x := by
  obtain ⟨condition, lhs, rhs, mask⟩ := a
  cases condition with
  | some r => exact hxy
  | none =>
    cases lhs with
    | index | field => exact hxy
    | var v =>
      have huses : Assignment.uses ⟨none, .var v, rhs, mask⟩ = v :: usedIn (rhs.walk 0) := rfl
      rw [huses] at hcarries htwins
      have hrhs := Rvalue.integer_rename 0 rhs fun u hu =>
        hcarries.named u (mem_cons_of_mem _ hu)
      have hv : y = (f v).id ↔ x = v.id := by
        rw [eq_comm, htwins.named v mem_cons_self, eq_comm]
      show (if y = (f v).id then (rhs.rename f).integer τ else τ y)
        = if x = v.id then rhs.integer σ else σ x
      rw [hrhs, hxy]
      exact ite_congr (propext hv) (fun _ => rfl) fun _ => rfl

/-- Counting with integers. -/
def integerEvaluation : Evaluation Int where
  value r σ := r.integer σ
  assign := Assignment.integer
  perform _ σ := σ
  initial _ := 0
  isTrue x := x ≠ 0
  holds op x y :=
    match op with
    | .greaterEqual => y ≤ x
    | _ => false
  advance x y := x + y
  shared := []
  value_rename := fun r _ _ _ h => Rvalue.integer_rename 0 r h.named
  assign_rename := fun a _ _ _ h _ _ htwins hxy => a.integer_rename h htwins hxy
  perform_rename := fun _ _ _ _ _ _ _ _ hxy => hxy

/-- The variable `i` counts to three, and the body is run each time. -/
def countToThree (body : List Instruction) : List Instruction :=
  let number (n : Int32) : Rvalue := .constant ⟨.scalar .int, .int (.fill 0 [n])⟩
  let i : Var := ⟨0, { name := "i", ty := .scalar .int }⟩
  let total : Var := ⟨1, { name := "total", ty := .scalar .int }⟩
  [.declare i, .declare total,
    .loop ⟨0⟩
      { counter := some i, start := some (number 0), stop := some (number 3),
        increment := some (number 1), comparison := some .greaterEqual } body]

/-- Three iterations, no jump. -/
def threeIterations : UnrollPlan := ⟨⟨[(⟨0⟩, ⟨3, 0⟩)]⟩, 32⟩

theorem threeIterations_exact : threeIterations.Exact [(⟨0⟩, 3)] := by
  intro entry hentry n hn
  cases mem_singleton.mp hentry
  exact Option.some.inj hn

/-- Two is added to the total, by way of a variable of the body. -/
def addsTwo : List Instruction :=
  let total : Var := ⟨1, { name := "total", ty := .scalar .int }⟩
  let step : Var := ⟨2, { name := "step", ty := .scalar .int }⟩
  let use (v : Var) : Rvalue := .dereference (.var v)
  let two : Rvalue := .constant ⟨.scalar .int, .int (.fill 0 [2])⟩
  [.declare step, .assign (.whole (.var step) two none),
    .assign (.whole (.var total) (.expression .add (.scalar .int) [use total, use step]) none)]

theorem unrollLoops_runAll_addsTwo :
    ∃ out r', (unrollLoops threeIterations ⟨⟨3⟩, ⟨1⟩, ⟨0⟩⟩ (countToThree addsTwo)).outcome = .ok out
      ∧ Instruction.runAll integerEvaluation 3 out (fun _ => 0) = some r' ∧ r'.values 1 = 6 := by
  obtain ⟨r, hrun, htotal, hcounts⟩ : ∃ r,
      runAll integerEvaluation 3 (countToThree addsTwo) (fun _ => 0) = some r
        ∧ r.values 1 = 6 ∧ r.counts = [(⟨0⟩, 3)] := ⟨_, rfl, rfl, rfl⟩
  obtain ⟨out, r', hout, hrun', -, hvalues⟩ := unrollLoops_runAll integerEvaluation threeIterations
    ⟨⟨3⟩, ⟨1⟩, ⟨0⟩⟩ (countToThree addsTwo) 3 (fun _ => 0) r (by decide +kernel) (by decide +kernel)
    nofun hrun (by rw [hcounts]; exact threeIterations_exact)
  have hspares : threeIterations.Spares ⟨⟨3⟩, ⟨1⟩, ⟨0⟩⟩ (countToThree addsTwo) 1 :=
    Sight.outside_sees.mp (by decide +kernel)
  exact ⟨out, r', hout, hrun', (hvalues 1 hspares).trans htotal⟩

/-- The total takes the value of the counter. -/
def takesCounter : List Instruction :=
  let i : Var := ⟨0, { name := "i", ty := .scalar .int }⟩
  let total : Var := ⟨1, { name := "total", ty := .scalar .int }⟩
  [.assign (.whole (.var total) (.dereference (.var i)) none)]

/-- **Unrolling does not keep what a body makes of the counter.**  The loop is a counting loop whose
    body has no jump, and it makes the three iterations that its entry has for it; the last one leaves
    2 in the total.  The three copies of its body leave 0, because nothing sets the counter any more. -/
theorem unrollLoops_forgets_counter :
    ∃ out r r', (unrollLoops threeIterations ⟨⟨2⟩, ⟨1⟩, ⟨0⟩⟩ (countToThree takesCounter)).outcome
        = .ok out
      ∧ runAll integerEvaluation 3 (countToThree takesCounter) (fun _ => 0) = some r
      ∧ threeIterations.Exact r.counts
      ∧ runAll integerEvaluation 3 out (fun _ => 0) = some r'
      ∧ r.values 1 = 2 ∧ r'.values 1 = 0 :=
  ⟨_, _, _, rfl, rfl, threeIterations_exact, rfl, rfl, rfl⟩

end Shading
