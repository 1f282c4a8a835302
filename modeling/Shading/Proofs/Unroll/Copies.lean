/-
  Shading.Proofs.Unroll.Copies — copies of a list, and what they do.

  `Copies plan inner P is is'` says that `is'` is `is` with other variables and loops, and with loops
  replaced by as many copies of their bodies as the plan asks for.  The pairing `P` says which variable
  and which loop of `is'` stands for which of `is`, among those that are there before the lists begin;
  it grows as the lists declare variables and enter loops.
-/
import Shading.Proofs.Clone.Identity
import Shading.Proofs.Clone.Rename
import Shading.Proofs.Execution
import Shading.Unroll

namespace Shading

open List Instruction

variable {id' : LoopId} {c : Controls} {n done : Nat}

/-! ## §1. Pairings -/

/-- Which identity stands for which. -/
abbrev Pairing := Identity → Identity → Prop

namespace Pairing

/-- No other pair has one of the two. -/
def Apart (P : Pairing) (a b : Identity) : Prop := ∀ c d, P c d → (c = a ↔ d = b)

/-- No pair has the first of the two, and so none has the second. -/
def Unpaired (P : Pairing) (a b : Identity) : Prop := ∀ c d, P c d → c ≠ a ∧ d ≠ b

/-- The pairing with one more pair. -/
def add (P : Pairing) (a b : Identity) : Pairing := fun c d => P c d ∨ (c = a ∧ d = b)

/-- The pairs of variables. -/
def vars (P : Pairing) : Pairing := fun c d => P c d ∧ ∃ number, c = .var number

/-- What stands for the identities once those that stood for them have been renewed. -/
def image (P : Pairing) (r : Renaming) : Pairing := fun c d => ∃ b, P c b ∧ d = r.image b

/-- The renamed variables stand for the variables. -/
def Names (P : Pairing) (f : Var → Var) (uses : List Var) : Prop :=
  ∀ v ∈ uses, P (.var v.id) (.var (f v).id)

/-- No identity stands for two or has two stand for it, and shared variables stand for themselves. -/
structure Fits (P : Pairing) (shared : List Nat) : Prop where
  oneToOne : ∀ a b c d, P a b → P c d → (c = a ↔ d = b)
  keeps : ∀ n ∈ shared, P (.var n) (.var n)

section

variable {P Q : Pairing} {a b : Identity} {r r' : Renaming} {shared : List Nat}

theorem Unpaired.apart (h : P.Unpaired a b) : P.Apart a b := fun c d hcd =>
  ⟨fun hc => absurd hc (h c d hcd).1, fun hd => absurd hd (h c d hcd).2⟩

theorem Fits.apart (h : P.Fits shared) (hab : P a b) : P.Apart a b := fun c d hcd =>
  h.oneToOne a b c d hab hcd

/-- A pairing may grow by a pair apart from all others. -/
theorem Fits.grow (h : P.Fits shared) (hapart : P.Apart a b) (hgrows : ∀ c d, P c d → Q c d)
    (hadds : ∀ c d, Q c d → P c d ∨ (c = a ∧ d = b)) : Q.Fits shared where
  oneToOne := fun a1 b1 c1 d1 h1 h2 => by
    rcases hadds a1 b1 h1 with hP1 | ⟨rfl, rfl⟩
    · rcases hadds c1 d1 h2 with hP2 | ⟨rfl, rfl⟩
      · exact h.oneToOne a1 b1 c1 d1 hP1 hP2
      · rw [eq_comm, eq_comm (a := d1)]
        exact hapart a1 b1 hP1
    · rcases hadds c1 d1 h2 with hP2 | ⟨rfl, rfl⟩
      · exact hapart c1 d1 hP2
      · exact ⟨fun _ => rfl, fun _ => rfl⟩
  keeps := fun n hn => hgrows _ _ (h.keeps n hn)

theorem Fits.add (h : P.Fits shared) (hapart : P.Apart a b) : (P.add a b).Fits shared :=
  h.grow hapart (fun _ _ hP => .inl hP) fun _ _ hQ => hQ

theorem Fits.vars (h : P.Fits shared) : P.vars.Fits shared where
  oneToOne := fun a b c d hab hcd => h.oneToOne a b c d hab.1 hcd.1
  keeps := fun n hn => ⟨h.keeps n hn, n, rfl⟩

theorem vars_image (P : Pairing) (r : Renaming) : P.vars.image r = (P.image r).vars := by
  funext c d
  apply propext
  constructor
  · intro ⟨b, ⟨hb, hc⟩, hd⟩
    exact ⟨⟨b, hb, hd⟩, hc⟩
  · intro ⟨⟨b, hb, hd⟩, hc⟩
    exact ⟨b, ⟨hb, hc⟩, hd⟩

theorem image_congr (h : ∀ a b, P a b → r'.image b = r.image b) : P.image r' = P.image r := by
  funext c d
  apply propext
  constructor
  · intro ⟨b, hb, hd⟩
    exact ⟨b, hb, by rw [hd, h c b hb]⟩
  · intro ⟨b, hb, hd⟩
    exact ⟨b, hb, by rw [hd, h c b hb]⟩

theorem image_empty (P : Pairing) : P.image .empty = P := by
  funext c d
  apply propext
  constructor
  · intro ⟨b, hb, hd⟩
    rw [hd, Renaming.image_empty]
    exact hb
  · intro h
    exact ⟨d, h, (Renaming.image_empty d).symm⟩

theorem Names.image {f : Var → Var} {uses : List Var} (h : P.Names f uses) :
    (P.image r).Names (fun v => r.var (f v)) uses := fun v hv =>
  ⟨.var (f v).id, h v hv, (r.image_var (f v)).symm⟩

end

end Pairing

/-! ## §2. Copies -/

/-- How many copies of its body the plan has for a loop; none if the loop stays. -/
def UnrollPlan.count? (plan : UnrollPlan) (id : LoopId) : Option Nat :=
  (plan.analysis.find? id).bind plan.copies?

/-- The second list is a copy of the first.  An inner one, which stands in a loop that is replaced,
    declares only variables and has only loops that nothing around it knows. -/
inductive Copies (plan : UnrollPlan) :
    Bool → Pairing → List Instruction → List Instruction → Prop
  | nil {inner : Bool} {P : Pairing} : Copies plan inner P [] []
  | declare {inner : Bool} {P Q : Pairing} {v v' : Var} {is is' : List Instruction}
      (apart : P.Apart (.var v.id) (.var v'.id))
      (unpaired : inner = true → P.Unpaired (.var v.id) (.var v'.id))
      (value : v'.value = v.value)
      (grows : ∀ a b, P a b → Q a b)
      (adds : ∀ a b, Q a b → P a b ∨ (a = .var v.id ∧ b = .var v'.id))
      (rest : Copies plan inner Q is is') :
      Copies plan inner P (.declare v :: is) (.declare v' :: is')
  | function {inner : Bool} {P : Pairing} {name : String} {sigs sigs' : List Signature}
      {is is' : List Instruction}
      (unpaired : inner = true → ∀ a b, P a b → b ∉ identitiesAll [.function name sigs'])
      (rest : Copies plan inner P is is') :
      Copies plan inner P (.function name sigs :: is) (.function name sigs' :: is')
  | assign {inner : Bool} {P : Pairing} {a : Assignment} {f : Var → Var} {is is' : List Instruction}
      (names : P.Names f a.uses) (rest : Copies plan inner P is is') :
      Copies plan inner P (.assign a :: is) (.assign (a.rename f) :: is')
  | ret {inner : Bool} {P : Pairing} {value : Option Rvalue} {f : Var → Var}
      {is is' : List Instruction}
      (names : ∀ r ∈ value, P.Names f r.uses) (rest : Copies plan inner P is is') :
      Copies plan inner P (.ret value :: is) (.ret (Rvalue.renameOption f value) :: is')
  | branch {inner : Bool} {P : Pairing} {condition : Rvalue} {f : Var → Var}
      {thenBody thenBody' elseBody elseBody' is is' : List Instruction}
      (names : P.Names f condition.uses)
      (thenCopies : Copies plan inner P thenBody thenBody')
      (elseCopies : Copies plan inner P elseBody elseBody')
      (rest : Copies plan inner P is is') :
      Copies plan inner P (.branch condition thenBody elseBody :: is)
        (.branch (condition.rename f) thenBody' elseBody' :: is')
  | loop {inner : Bool} {P : Pairing} {id id' : LoopId} {controls : Controls} {f : Var → Var}
      {body body' is is' : List Instruction}
      (apart : P.Apart (.loop id) (.loop id'))
      (unpaired : inner = true → P.Unpaired (.loop id) (.loop id'))
      (names : P.Names f controls.uses)
      (bodyCopies : Copies plan inner (P.add (.loop id) (.loop id')) body body')
      (rest : Copies plan inner P is is') :
      Copies plan inner P (.loop id controls body :: is) (.loop id' (controls.rename f) body' :: is')
  | jump {inner : Bool} {P : Pairing} {mode : JumpMode} {target target' : LoopId}
      {is is' : List Instruction}
      (pair : P (.loop target) (.loop target')) (rest : Copies plan inner P is is') :
      Copies plan inner P (.jump mode target :: is) (.jump mode target' :: is')
  | rvalue {inner : Bool} {P : Pairing} {r : Rvalue} {f : Var → Var} {is is' : List Instruction}
      (names : P.Names f r.uses) (rest : Copies plan inner P is is') :
      Copies plan inner P (.rvalue r :: is) (.rvalue (r.rename f) :: is')
  | unrolled {inner : Bool} {P : Pairing} {id : LoopId} {controls : Controls}
      {body : List Instruction} {blocks : List (List Instruction)} {is is' : List Instruction}
      (count : plan.count? id = some blocks.length)
      (counter : ∀ v ∈ controls.counter, ∀ b, ¬ P (.var v.id) b)
      (bodies : ∀ block ∈ blocks, Copies plan true P.vars body block)
      (unpaired : inner = true → ∀ a b, P a b → b ∉ identitiesAll blocks.flatten)
      (rest : Copies plan inner P is is') :
      Copies plan inner P (.loop id controls body :: is) (blocks.flatten ++ is')

variable {is is' : List Instruction}

theorem Instruction.not_mem_identitiesAll_cons {a : Identity} {i : Instruction} :
    a ∉ identitiesAll (i :: is)
      ↔ a ∉ identitiesAll [i] ∧ a ∉ identitiesAll is := by
  rw [show i :: is = [i] ++ is from rfl, identitiesAll_append, mem_append, not_or]

/-- What stands for something around an inner copy is not brought along by it. -/
theorem Copies.avoids {plan : UnrollPlan} {P : Pairing} (h : Copies plan true P is is') :
    ∀ a b, P a b → b ∉ identitiesAll is' := by
  -- every copy inside of an inner one is an inner one too
  generalize hinner : true = inner at h
  induction h with
  | nil => exact fun a b _ => not_mem_nil
  | declare apart unpaired value grows adds rest ih =>
    intro a b hab
    refine not_mem_identitiesAll_cons.mpr ⟨?_, ih hinner a b (grows a b hab)⟩
    exact mt mem_singleton.mp (unpaired hinner.symm a b hab).2
  | function unpaired rest ih =>
    intro a b hab
    exact not_mem_identitiesAll_cons.mpr
      ⟨unpaired hinner.symm a b hab, ih hinner a b hab⟩
  | assign _ _ ih | ret _ _ ih | jump _ _ ih | rvalue _ _ ih =>
    intro a b hab
    exact not_mem_identitiesAll_cons.mpr ⟨not_mem_nil, ih hinner a b hab⟩
  | branch names thenCopies elseCopies rest ihThen ihElse ih =>
    intro a b hab
    refine not_mem_identitiesAll_cons.mpr ⟨fun hmem => ?_, ih hinner a b hab⟩
    rcases mem_append.mp hmem with hmem | hmem
    · exact ihThen hinner a b hab hmem
    · exact ihElse hinner a b hab hmem
  | loop apart unpaired names bodyCopies rest ihBody ih =>
    intro a b hab
    refine not_mem_identitiesAll_cons.mpr ⟨fun hmem => ?_, ih hinner a b hab⟩
    rcases mem_cons.mp hmem with hb | hmem
    · exact (unpaired hinner.symm a b hab).2 hb
    · exact ihBody hinner a b (.inl hab) hmem
  | unrolled count counter bodies unpaired rest ihBodies ih =>
    intro a b hab
    rw [identitiesAll_append, mem_append, not_or]
    exact ⟨unpaired hinner.symm a b hab, ih hinner a b hab⟩

/-! ## §3. A copy does what the list does -/

/-- Each loop that the plan replaces has made the iterations that the plan has for it. -/
def UnrollPlan.Exact (plan : UnrollPlan) (counts : List (LoopId × Nat)) : Prop :=
  ∀ entry ∈ counts, ∀ n ∈ plan.count? entry.1, entry.2 = n

theorem UnrollPlan.exact_append {plan : UnrollPlan} {xs ys : List (LoopId × Nat)} :
    plan.Exact (xs ++ ys) ↔ plan.Exact xs ∧ plan.Exact ys := by
  unfold UnrollPlan.Exact
  exact forall_mem_append

variable {o o' : Outcome V} {id : LoopId} {v : Var}

section

variable {V : Type}

/-- What stands for a variable has its value. -/
def Pairing.Related (P : Pairing) (σ τ : Valuation V) : Prop := ∀ x y, P (.var x) (.var y) → τ y = σ x

/-- The lists are left in the same way; the target of a jump stands for the other's. -/
inductive Pairing.Alike (P : Pairing) : Outcome V → Outcome V → Prop
  | next : P.Alike .next .next
  | jump {mode : JumpMode} {target target' : LoopId} (pair : P (.loop target) (.loop target')) :
      P.Alike (.jump mode target) (.jump mode target')
  | ret (value : Option V) : P.Alike (.ret value) (.ret value)

/-- The second computation does what the first does: it ends if that ends, and in the same way. -/
def Follows (plan : UnrollPlan) (P : Pairing) (f g : Valuation V → Option (Run V)) : Prop :=
  ∀ σ τ r, P.Related σ τ → f σ = some r → plan.Exact r.counts →
    ∃ r', g τ = some r' ∧ P.Related r.values r'.values ∧ P.Alike r.outcome r'.outcome

namespace Pairing

variable {P Q : Pairing} {σ τ : Valuation V}

theorem Related.mono (h : Q.Related σ τ) (hsub : ∀ a b, P a b → Q a b) : P.Related σ τ :=
  fun x y hxy => h x y (hsub _ _ hxy)

theorem Alike.next_iff (h : P.Alike o o') : o = .next ↔ o' = .next := by
  cases h with
  | next => exact ⟨fun _ => rfl, fun _ => rfl⟩
  | jump | ret => exact ⟨nofun, nofun⟩

theorem Related.add_loop (h : P.Related σ τ) :
    (P.add (.loop id) (.loop id')).Related σ τ := by
  intro x y hxy
  rcases hxy with hxy | ⟨hx, -⟩
  · exact h x y hxy
  · cases hx

theorem Related.vars (h : P.Related σ τ) : P.vars.Related σ τ := h.mono fun _ _ => And.left

theorem Related.of_vars (h : P.vars.Related σ τ) : P.Related σ τ := fun x y hxy =>
  h x y ⟨hxy, x, rfl⟩

theorem Alike.of_vars (h : P.vars.Alike o o') :
    (o = .next ∧ o' = .next) ∨ ∃ value, o = .ret value ∧ o' = .ret value := by
  cases h with
  | next => exact .inl ⟨rfl, rfl⟩
  | ret value => exact .inr ⟨value, rfl, rfl⟩
  | jump pair =>
    obtain ⟨-, number, hnumber⟩ := pair
    cases hnumber

/-- Paired variables may be set to one value. -/
theorem Related.set {v' : Var} (h : P.Related σ τ) (hapart : P.Apart (.var v.id) (.var v'.id))
    (x : V) : P.Related (σ.set v x) (τ.set v' x) := by
  intro n n' hn
  have hiff : n = v.id ↔ n' = v'.id := by
    have := hapart _ _ hn
    rwa [Identity.var.injEq, Identity.var.injEq] at this
  show (if n' = v'.id then x else τ n') = if n = v.id then x else σ n
  by_cases hv : n = v.id
  · rw [if_pos hv, if_pos (hiff.mp hv)]
  · rw [if_neg hv, if_neg fun hv' => hv (hiff.mpr hv')]
    exact h n n' hn

theorem Related.set_left (h : P.Related σ τ) (hfree : ∀ b, ¬ P (.var v.id) b) (x : V) :
    P.Related (σ.set v x) τ := by
  intro n n' hn
  show τ n' = if n = v.id then x else σ n
  have hne : n ≠ v.id := fun hv => hfree _ (hv ▸ hn)
  rw [if_neg hne]
  exact h n n' hn

section

variable {shared : List Nat} {f : Var → Var} {uses : List Var}

theorem Fits.carries (h : P.Fits shared) (hnames : P.Names f uses) (hrel : P.Related σ τ) :
    σ.Carries uses shared f τ :=
  ⟨fun v hv => hrel _ _ (hnames v hv), fun n hn => hrel n n (h.keeps n hn)⟩

theorem Fits.twins (h : P.Fits shared) (hnames : P.Names f uses) {x y : Nat}
    (hxy : P (.var x) (.var y)) : Twins uses shared f x y where
  named := fun v hv => by
    have := h.oneToOne _ _ _ _ hxy (hnames v hv)
    rw [Identity.var.injEq, Identity.var.injEq] at this
    exact this.symm
  unnamed := fun n hn => by
    have := h.oneToOne _ _ _ _ hxy (h.keeps n hn)
    rw [Identity.var.injEq, Identity.var.injEq] at this
    exact this.symm

end

end Pairing

/-! ### Loop controls -/

theorem mem_usedIn_walkOption {o : Option Rvalue} :
    v ∈ usedIn (Rvalue.walkOption 0 o) ↔ ∃ r ∈ o, v ∈ r.uses := by
  cases o with
  | none => simp [Rvalue.walkOption, usedIn]
  | some r => simp [Rvalue.walkOption, Rvalue.uses]

theorem Controls.mem_uses :
    v ∈ c.uses ↔ v ∈ c.counter ∨ (∃ r ∈ c.start, v ∈ r.uses) ∨ (∃ r ∈ c.stop, v ∈ r.uses)
      ∨ ∃ r ∈ c.increment, v ∈ r.uses := by
  have hcounter : usedIn (c.counter.map fun v => (⟨0, .use v⟩ : Step)).toList = c.counter.toList := by
    cases c.counter <;> rfl
  have happend : ∀ xs ys : List Step, usedIn (xs ++ ys) = usedIn xs ++ usedIn ys := fun xs ys =>
    filterMap_append
  unfold Controls.uses Controls.walk
  rw [happend, happend, happend, hcounter]
  simp only [mem_append, Option.mem_toList, Option.mem_def, mem_usedIn_walkOption, or_assoc]

section

variable {P : Pairing} {ev : Evaluation V} {c : Controls} {f : Var → Var} {σ τ : Valuation V}

/-- The controls begin alike. -/
theorem Controls.related_begin (hfits : P.Fits ev.shared) (hnames : P.Names f c.uses)
    (hrel : P.Related σ τ) : P.Related (c.begin ev σ) ((c.rename f).begin ev τ) := by
  obtain ⟨counter, start, stop, increment, comparison⟩ := c
  cases counter with
  | none => exact hrel
  | some v =>
    cases start with
    | none => exact hrel
    | some r =>
      have hr : P.Names f r.uses := fun u hu =>
        hnames u (Controls.mem_uses.mpr (.inr (.inl ⟨r, rfl, hu⟩)))
      show P.Related (σ.set v (ev.value r σ)) (τ.set (f v) (ev.value (r.rename f) τ))
      rw [ev.value_rename r f σ τ (hfits.carries hr hrel)]
      exact hrel.set (hfits.apart (hnames v (Controls.mem_uses.mpr (.inl rfl)))) _

theorem Controls.isOver_rename (hfits : P.Fits ev.shared) (hnames : P.Names f c.uses)
    (hrel : P.Related σ τ) : (c.rename f).isOver ev τ = c.isOver ev σ := by
  obtain ⟨counter, start, stop, increment, comparison⟩ := c
  cases counter with
  | none => rfl
  | some v =>
    cases comparison with
    | none => rfl
    | some op =>
      cases stop with
      | none => rfl
      | some r =>
        have hr : P.Names f r.uses := fun u hu =>
          hnames u (Controls.mem_uses.mpr (.inr (.inr (.inl ⟨r, rfl, hu⟩))))
        show ev.holds op (τ (f v).id) (ev.value (r.rename f) τ)
          = ev.holds op (σ v.id) (ev.value r σ)
        rw [ev.value_rename r f σ τ (hfits.carries hr hrel),
          hrel _ _ (hnames v (Controls.mem_uses.mpr (.inl rfl)))]

theorem Controls.related_advance (hfits : P.Fits ev.shared) (hnames : P.Names f c.uses)
    (hrel : P.Related σ τ) : P.Related (c.advance ev σ) ((c.rename f).advance ev τ) := by
  obtain ⟨counter, start, stop, increment, comparison⟩ := c
  cases counter with
  | none => exact hrel
  | some v =>
    cases increment with
    | none => exact hrel
    | some r =>
      have hr : P.Names f r.uses := fun u hu =>
        hnames u (Controls.mem_uses.mpr (.inr (.inr (.inr ⟨r, rfl, hu⟩))))
      have hv := hnames v (Controls.mem_uses.mpr (.inl rfl))
      show P.Related (σ.set v (ev.advance (σ v.id) (ev.value r σ)))
        (τ.set (f v) (ev.advance (τ (f v).id) (ev.value (r.rename f) τ)))
      rw [ev.value_rename r f σ τ (hfits.carries hr hrel), hrel _ _ hv]
      exact hrel.set (hfits.apart hv) _

theorem Controls.related_begin_left (hcounter : ∀ v ∈ c.counter, ∀ b, ¬ P (.var v.id) b)
    (hrel : P.Related σ τ) : P.Related (c.begin ev σ) τ := by
  unfold Controls.begin
  split
  next v r hv _ => exact hrel.set_left (hcounter v hv) _
  next => exact hrel

theorem Controls.related_advance_left (hcounter : ∀ v ∈ c.counter, ∀ b, ¬ P (.var v.id) b)
    (hrel : P.Related σ τ) : P.Related (c.advance ev σ) τ := by
  unfold Controls.advance
  split
  next v r hv _ => exact hrel.set_left (hcounter v hv) _
  next => exact hrel

end

/-! ### Sequences, loops and copies of a body -/

section

variable {plan : UnrollPlan} {P : Pairing} {ev : Evaluation V}

/-- Sequences follow each other part by part. -/
theorem Follows.seq {f g f' g' : Valuation V → Option (Run V)} (hfirst : Follows plan P f f')
    (hrest : Follows plan P g g') :
    Follows plan P (fun σ => (f σ).bind fun r => r.andThen g)
      (fun τ => (f' τ).bind fun r => r.andThen g') := by
  intro σ τ out hrel hout hexact
  obtain ⟨first, hf, hthen⟩ := Option.bind_eq_some_iff.mp hout
  rcases Run.andThen_eq_some.mp hthen with ⟨hnext, last, hlast, rfl⟩ | ⟨hleft, rfl⟩
  · obtain ⟨hexact1, hexact2⟩ := UnrollPlan.exact_append.mp hexact
    obtain ⟨first', hf', hrel', halike⟩ := hfirst σ τ first hrel hf hexact1
    obtain ⟨last', hlast', hrel'', halike'⟩ := hrest _ _ last hrel' hlast hexact2
    refine ⟨last'.after first'.counts, ?_, hrel'', halike'⟩
    exact Option.bind_eq_some_iff.mpr ⟨first', hf',
      Run.andThen_eq_some.mpr (.inl ⟨halike.next_iff.mp hnext, last', hlast', rfl⟩)⟩
  · obtain ⟨first', hf', hrel', halike⟩ := hfirst σ τ out hrel hf hexact
    refine ⟨first', ?_, hrel', halike⟩
    exact Option.bind_eq_some_iff.mpr ⟨first', hf',
      Run.andThen_eq_some.mpr (.inr ⟨fun hnext => hleft (halike.next_iff.mpr hnext), rfl⟩)⟩

/-- Leaving paired loops leaves paired outcomes. -/
theorem Pairing.Alike.leaving (hapart : P.Apart (.loop id) (.loop id'))
    (h : (P.add (.loop id) (.loop id')).Alike o o') :
    (o.leaving id = none ∧ o'.leaving id' = none)
      ∨ ∃ p p', o.leaving id = some p ∧ o'.leaving id' = some p' ∧ P.Alike p p' := by
  cases h with
  | next => exact .inl ⟨rfl, rfl⟩
  | ret value => exact .inr ⟨_, _, rfl, rfl, .ret value⟩
  | @jump mode target target' pair =>
    -- a pair from outside has neither of the two loops in it
    have hiff : target = id ↔ target' = id' := by
      rcases pair with pair | ⟨ht, ht'⟩
      · have := hapart _ _ pair
        rwa [Identity.loop.injEq, Identity.loop.injEq] at this
      · cases ht
        cases ht'
        exact ⟨fun _ => rfl, fun _ => rfl⟩
    by_cases ht : target = id
    · have ht' := hiff.mp ht
      cases mode with
      | «break» => exact .inr ⟨.next, .next, by simp [Outcome.leaving, ht],
          by simp [Outcome.leaving, ht'], .next⟩
      | «continue» => exact .inl ⟨by simp [Outcome.leaving, ht], by simp [Outcome.leaving, ht']⟩
    · have ht' : target' ≠ id' := fun h => ht (hiff.mpr h)
      rcases pair with pair | ⟨heq, -⟩
      · exact .inr ⟨.jump mode target, .jump mode target', by simp [Outcome.leaving, ht],
          by simp [Outcome.leaving, ht'], .jump pair⟩
      · cases heq
        exact absurd rfl ht

/-- **A loop around a copy does what the loop does.** -/
theorem Follows.loop {id : LoopId} {f : Var → Var}
    {body body' : Valuation V → Option (Run V)} (hfits : P.Fits ev.shared)
    (hapart : P.Apart (.loop id) (.loop id')) (hnames : P.Names f c.uses)
    (hbody : Follows plan (P.add (.loop id) (.loop id')) body body') (fuel done : Nat) :
    Follows plan P (loopFrom ev id c body fuel done)
      (loopFrom ev id' (c.rename f) body' fuel done) := by
  induction fuel generalizing done with
  | zero =>
    intro σ τ r hrel hr _
    unfold loopFrom at hr ⊢
    rw [Controls.isOver_rename hfits hnames hrel]
    split at hr
    next hover =>
      cases hr
      exact ⟨_, if_pos hover, hrel, .next⟩
    next => cases hr
  | succ fuel ih =>
    intro σ τ r hrel hr hexact
    unfold loopFrom at hr ⊢
    rw [Controls.isOver_rename hfits hnames hrel]
    split at hr
    next hover =>
      cases hr
      exact ⟨_, if_pos hover, hrel, .next⟩
    next hover =>
      rw [if_neg hover]
      obtain ⟨first, hfirst, hrest⟩ := Option.bind_eq_some_iff.mp hr
      split at hrest
      next outcome hleaves =>
        -- The body has left the loop.
        cases hrest
        obtain ⟨first', hfirst', hrel', halike⟩ :=
          hbody σ τ first hrel.add_loop hfirst (UnrollPlan.exact_append.mp hexact).1
        rw [hfirst', Option.bind_some]
        rcases halike.leaving hapart with ⟨hgoes, -⟩ | ⟨p, p', hp, hp', hpp'⟩
        · rw [hgoes] at hleaves
          cases hleaves
        · rw [hp] at hleaves
          cases hleaves
          rw [hp']
          exact ⟨_, rfl, hrel'.mono fun _ _ => .inl, hpp'⟩
      next hgoes =>
        -- The loop goes on.
        obtain ⟨last, hlast, rfl⟩ := Option.map_eq_some_iff.mp hrest
        obtain ⟨hexact1, hexact2⟩ := UnrollPlan.exact_append.mp hexact
        obtain ⟨first', hfirst', hrel', halike⟩ :=
          hbody σ τ first hrel.add_loop hfirst hexact1
        rw [hfirst', Option.bind_some]
        rcases halike.leaving hapart with ⟨-, hgoes'⟩ | ⟨p, p', hp, hp', hpp'⟩
        · rw [hgoes']
          obtain ⟨last', hlast', hrel'', halike'⟩ := ih (done + 1) _ _ last
            (Controls.related_advance hfits hnames (hrel'.mono fun _ _ => .inl)) hlast hexact2
          exact ⟨last'.after first'.counts, Option.map_eq_some_iff.mpr ⟨last', hlast', rfl⟩, hrel'',
            halike'⟩
        · rw [hp] at hgoes
          cases hgoes

theorem blocks_eq_nil {blocks : List (List Instruction)}
    (hcount : plan.count? id = some n) (hdone : done + blocks.length = n)
    (hexact : plan.Exact [(id, done)]) : blocks = [] := by
  have hn : done = n := hexact _ (mem_singleton.mpr rfl) n hcount
  exact length_eq_zero_iff.mp (by omega)

theorem blocks_ne_nil {blocks : List (List Instruction)}
    {counts : List (LoopId × Nat)} (hcount : plan.count? id = some n)
    (hdone : done + blocks.length = n) (hexact : plan.Exact counts)
    (hmore : ∃ m, done + 1 ≤ m ∧ (id, m) ∈ counts) : ∃ block rest, blocks = block :: rest := by
  obtain ⟨m, hm, hmem⟩ := hmore
  have hn : m = n := hexact _ hmem n hcount
  cases blocks with
  | nil =>
    rw [length_nil] at hdone
    omega
  | cons block rest => exact ⟨block, rest, rfl⟩

/-- **Copies of a body do what the loop does.**  The loop has made `done` iterations, and there is a
    copy for each one that it still makes. -/
theorem Follows.blocks {id : LoopId} {body : List Instruction} {limit : Nat}
    (hcount : plan.count? id = some n) (hcounter : ∀ v ∈ c.counter, ∀ b, ¬ P (.var v.id) b)
    (fuel : Nat) {blocks : List (List Instruction)}
    (hblocks : ∀ block ∈ blocks, Follows plan P.vars (runAll ev limit body)
      (runAll ev limit block)) (hdone : done + blocks.length = n) :
    Follows plan P (loopFrom ev id c (fun σ => runAll ev limit body σ) fuel done)
      (runAll ev limit blocks.flatten) := by
  induction fuel generalizing done blocks with
  | zero =>
    intro σ τ r hrel hr hexact
    unfold loopFrom at hr
    split at hr
    · cases hr
      rw [blocks_eq_nil hcount hdone hexact]
      exact ⟨_, rfl, hrel, .next⟩
    · cases hr
  | succ fuel ih =>
    intro σ τ r hrel hr hexact
    unfold loopFrom at hr
    split at hr
    · cases hr
      rw [blocks_eq_nil hcount hdone hexact]
      exact ⟨_, rfl, hrel, .next⟩
    · obtain ⟨first, hfirst, hrest⟩ := Option.bind_eq_some_iff.mp hr
      split at hrest
      next outcome hleaves =>
        -- The body returns.
        cases hrest
        obtain ⟨block, rest, rfl⟩ := blocks_ne_nil hcount hdone hexact
          ⟨done + 1, Nat.le_refl _, mem_append_right _ (mem_singleton.mpr rfl)⟩
        obtain ⟨first', hfirst', hrel', halike⟩ := hblocks block mem_cons_self σ τ first
          hrel.vars hfirst (UnrollPlan.exact_append.mp hexact).1
        rcases halike.of_vars with ⟨hnext, -⟩ | ⟨value, hret, hret'⟩
        · rw [hnext] at hleaves
          cases hleaves
        · rw [hret] at hleaves
          cases hleaves
          refine ⟨first', ?_, hrel'.of_vars, by rw [hret']; exact .ret value⟩
          rw [flatten_cons, runAll_append, hfirst', Option.bind_some]
          exact Run.andThen_eq_some.mpr (.inr ⟨by rw [hret']; nofun, rfl⟩)
      next hgoes =>
        -- The body comes to its end, and the counter moves on.
        obtain ⟨last, hlast, rfl⟩ := Option.map_eq_some_iff.mp hrest
        obtain ⟨hexact1, hexact2⟩ := UnrollPlan.exact_append.mp hexact
        obtain ⟨block, rest, rfl⟩ := blocks_ne_nil hcount hdone hexact2 (loopFrom_counts hlast)
        obtain ⟨first', hfirst', hrel', halike⟩ := hblocks block mem_cons_self σ τ first
          hrel.vars hfirst hexact1
        rcases halike.of_vars with ⟨-, hnext'⟩ | ⟨value, hret, -⟩
        · obtain ⟨last', hlast', hrel'', halike'⟩ := ih
            (fun b hb => hblocks b (mem_cons_of_mem _ hb))
            (show done + 1 + rest.length = n by rw [length_cons] at hdone; omega) _ _ last
            (Controls.related_advance_left hcounter hrel'.of_vars) hlast hexact2
          refine ⟨last'.after first'.counts, ?_, hrel'', halike'⟩
          rw [flatten_cons, runAll_append, hfirst', Option.bind_some]
          exact Run.andThen_eq_some.mpr (.inl ⟨hnext', last', hlast', rfl⟩)
        · rw [hret] at hgoes
          cases hgoes

/-! ### Lists -/

section

variable {fuel : Nat} {i i' : Instruction} {is is' : List Instruction}

theorem Follows.cons (hfirst : Follows plan P (i.run ev fuel) (i'.run ev fuel))
    (hrest : Follows plan P (runAll ev fuel is) (runAll ev fuel is')) :
    Follows plan P (runAll ev fuel (i :: is)) (runAll ev fuel (i' :: is')) :=
  hfirst.seq hrest

theorem Follows.of_step {f g : Valuation V → Valuation V}
    (h : ∀ σ τ, P.Related σ τ → P.Related (f σ) (g τ)) :
    Follows plan P (fun σ => some { values := f σ }) fun τ => some { values := g τ } := by
  intro σ τ r hrel hr _
  cases hr
  exact ⟨_, rfl, h σ τ hrel, .next⟩

theorem Follows.declare {Q : Pairing} {v v' : Var} (hvalue : v'.value = v.value)
    (hapart : P.Apart (.var v.id) (.var v'.id)) (hgrows : ∀ a b, P a b → Q a b)
    (hadds : ∀ a b, Q a b → P a b ∨ (a = .var v.id ∧ b = .var v'.id))
    (hrest : Follows plan Q (runAll ev fuel is) (runAll ev fuel is')) :
    Follows plan P (runAll ev fuel (.declare v :: is))
      (runAll ev fuel (.declare v' :: is')) := by
  intro σ τ r hrel hr hexact
  have hset : Q.Related (σ.set v (ev.initial v.value)) (τ.set v' (ev.initial v'.value)) := by
    intro x y hxy
    rcases hadds _ _ hxy with hxy | ⟨hx, hy⟩
    · rw [hvalue]
      exact hrel.set hapart _ x y hxy
    · cases hx
      cases hy
      rw [hvalue]
      show (if v'.id = v'.id then _ else _) = if v.id = v.id then _ else _
      rw [if_pos rfl, if_pos rfl]
  obtain ⟨first, hfirst, hthen⟩ := Option.bind_eq_some_iff.mp hr
  cases hfirst
  obtain ⟨last, hlast, rfl⟩ := Option.map_eq_some_iff.mp hthen
  obtain ⟨last', hlast', hrel', halike⟩ := hrest _ _ last hset hlast hexact
  refine ⟨last'.after [], Option.map_eq_some_iff.mpr ⟨last', hlast', rfl⟩, hrel'.mono hgrows, ?_⟩
  show P.Alike last.outcome last'.outcome
  -- jumps lead to loops, and no loop was added
  generalize last.outcome = o, last'.outcome = o' at halike
  cases halike with
  | next => exact .next
  | ret value => exact .ret value
  | jump pair =>
    rcases hadds _ _ pair with pair | ⟨hvar, -⟩
    · exact .jump pair
    · cases hvar

end

/-- **A copy does what the list does**, as long as the loops that were replaced make the iterations that
    the plan has for them. -/
theorem Copies.follows {inner : Bool} (h : Copies plan inner P is is') (hfits : P.Fits ev.shared)
    (fuel : Nat) :
    Follows plan P (runAll ev fuel is) (runAll ev fuel is') := by
  -- each case deals with one instruction; `ih` is about the rest of the list
  induction h with
  | nil => exact .of_step fun _ _ hrel => hrel
  | declare apart unpaired value grows adds rest ih =>
    exact .declare value apart grows adds (ih (hfits.grow apart grows adds))
  | function unpaired rest ih => exact .cons (.of_step fun _ _ hrel => hrel) (ih hfits)
  | @assign _ _ a f _ _ names rest ih =>
    refine .cons (.of_step fun σ τ hrel x y hxy => ?_) (ih hfits)
    exact ev.assign_rename a f σ τ (hfits.carries names hrel) x y (hfits.twins names hxy)
      (hrel x y hxy)
  | @ret _ P value f _ _ names rest ih =>
    refine .cons ?_ (ih hfits)
    intro σ τ r hrel hr _
    cases hr
    refine ⟨_, rfl, hrel, ?_⟩
    cases value with
    | none => exact .ret none
    | some r =>
      show P.Alike (.ret (some (ev.value r σ))) (.ret (some (ev.value (r.rename f) τ)))
      rw [ev.value_rename r f σ τ (hfits.carries (names r rfl) hrel)]
      exact .ret _
  | @branch _ P condition f thenBody thenBody' elseBody elseBody' _ _ names thenCopies elseCopies rest
      ihThen ihElse ih =>
    refine .cons ?_ (ih hfits)
    intro σ τ r hrel hr hexact
    unfold run at hr ⊢
    rw [ev.value_rename condition f σ τ (hfits.carries names hrel)]
    split at hr
    next htrue =>
      rw [if_pos htrue]
      exact ihThen hfits σ τ r hrel hr hexact
    next hfalse =>
      rw [if_neg hfalse]
      exact ihElse hfits σ τ r hrel hr hexact
  | loop apart unpaired names bodyCopies rest ihBody ih =>
    refine .cons ?_ (ih hfits)
    intro σ τ r hrel hr hexact
    exact Follows.loop hfits apart names (ihBody (hfits.add apart)) fuel 0 _ _ r
      (Controls.related_begin hfits names hrel) hr hexact
  | jump pair rest ih =>
    refine .cons ?_ (ih hfits)
    intro σ τ r hrel hr _
    cases hr
    exact ⟨_, rfl, hrel, .jump pair⟩
  | @rvalue _ _ r f _ _ names rest ih =>
    refine .cons (.of_step fun σ τ hrel x y hxy => ?_) (ih hfits)
    exact ev.perform_rename r f σ τ (hfits.carries names hrel) x y (hfits.twins names hxy)
      (hrel x y hxy)
  | unrolled count counter bodies unpaired rest ihBodies ih =>
    intro σ τ r hrel hr hexact
    rw [runAll_append]
    refine Follows.seq (fun σ τ r hrel hr hexact => ?_) (ih hfits) σ τ r hrel hr hexact
    exact Follows.blocks count counter fuel (fun block hblock => ihBodies block hblock hfits.vars)
      (Nat.zero_add _) _ _ r (Controls.related_begin_left counter hrel) hr hexact

end

end

/-! ## §4. Copying a copy -/

variable {c c' : CloneState} {old new : List Identity}

section

variable {plan : UnrollPlan} {P : Pairing}

/-- What stands for something has been issued, and is renewed by something that has been issued. -/
def Pairing.IssuedIn (P : Pairing) (c : CloneState) : Prop :=
  ∀ a b, P a b → c.storage.Has (c.renewed.image b)

theorem Renews.image_eq (h : Renews c c' old new) (havoids : ∀ a b, P a b → b ∉ old) :
    P.image c'.renewed = P.image c.renewed :=
  Pairing.image_congr fun a b hab => h.spares b (havoids a b hab)

theorem Renews.issuedIn (h : Renews c c' old new) (havoids : ∀ a b, P a b → b ∉ old)
    (hissued : P.IssuedIn c) : P.IssuedIn c' := fun a b hab => by
  rw [h.spares b (havoids a b hab)]
  exact h.grows _ (hissued a b hab)

theorem Renews.not_mem_new (h : Renews c c' old new) (hissued : P.IssuedIn c) :
    ∀ a b, P.image c.renewed a b → b ∉ new := by
  rintro a _ ⟨b, hab, rfl⟩ hmem
  exact h.fresh _ hmem (hissued a b hab)

section

variable {Q : Pairing} {c c' : CloneState} {a b b' : Identity}

theorem RenewsTo.image_grows (h : RenewsTo c c' b b') (hunpaired : P.Unpaired a b)
    (hgrows : ∀ x y, P x y → Q x y) : ∀ x y, P.image c.renewed x y → Q.image c'.renewed x y := by
  rintro x _ ⟨y, hxy, rfl⟩
  exact ⟨y, hgrows x y hxy, (h.spares y fun hy =>
    (hunpaired x y hxy).2 (mem_singleton.mp hy)).symm⟩

theorem RenewsTo.image_adds (h : RenewsTo c c' b b') (hunpaired : P.Unpaired a b)
    (hadds : ∀ x y, Q x y → P x y ∨ (x = a ∧ y = b)) :
    ∀ x y, Q.image c'.renewed x y → P.image c.renewed x y ∨ (x = a ∧ y = b') := by
  rintro x _ ⟨y, hxy, rfl⟩
  rcases hadds x y hxy with hP | ⟨hx, hy⟩
  · exact .inl ⟨y, hP, h.spares y fun hy => (hunpaired x y hP).2 (mem_singleton.mp hy)⟩
  · rw [hy]
    exact .inr ⟨hx, h.image⟩

theorem RenewsTo.image_add (h : RenewsTo c c' b b') (hunpaired : P.Unpaired a b) :
    (P.add a b).image c'.renewed = (P.image c.renewed).add a b' := by
  funext x y
  apply propext
  constructor
  · exact h.image_adds hunpaired (fun _ _ hQ => hQ) x y
  · rintro (hP | ⟨rfl, rfl⟩)
    · exact h.image_grows hunpaired (fun _ _ => .inl) x y hP
    · exact ⟨b, .inr ⟨rfl, rfl⟩, h.image.symm⟩

theorem RenewsTo.issuedIn (h : RenewsTo c c' b b') (hissued : P.IssuedIn c)
    (hunpaired : P.Unpaired a b) (hadds : ∀ x y, Q x y → P x y ∨ (x = a ∧ y = b)) :
    Q.IssuedIn c' := by
  intro x y hxy
  rcases hadds x y hxy with hP | ⟨-, rfl⟩
  · rw [h.spares y fun hy => (hunpaired x y hP).2 (mem_singleton.mp hy)]
    exact h.grows _ (hissued x y hP)
  · rw [h.image]
    exact h.has

theorem RenewsTo.unpaired (h : RenewsTo c c' b b') (hissued : P.IssuedIn c)
    (hunpaired : P.Unpaired a b) : (P.image c.renewed).Unpaired a b' := by
  rintro x _ ⟨y, hxy, rfl⟩
  refine ⟨(hunpaired x y hxy).1, fun hb => ?_⟩
  rw [← hb] at h
  exact h.fresh _ (mem_singleton.mpr rfl) (hissued x y hxy)

end

/-- Copies of a body follow the body. -/
theorem exists_blocks_clone {body : List Instruction} {blocks : List (List Instruction)}
    (hbodies : ∀ block ∈ blocks, ∀ c : CloneState, P.IssuedIn c →
      Copies plan true (P.image c.renewed) body ((cloneAll block).run c).1)
    (havoids : ∀ a b, P a b → b ∉ identitiesAll blocks.flatten) (hissued : P.IssuedIn c)
    :
    ∃ blocks' : List (List Instruction), blocks'.length = blocks.length
      ∧ ((cloneAll blocks.flatten).run c).1 = blocks'.flatten
      ∧ ∀ block ∈ blocks', Copies plan true (P.image c.renewed) body block := by
  induction blocks generalizing c with
  | nil => exact ⟨[], rfl, rfl, fun _ h => absurd h not_mem_nil⟩
  | cons block rest ih =>
    have hsplit : ∀ a b, P a b → b ∉ identitiesAll block
        ∧ b ∉ identitiesAll rest.flatten := by
      intro a b hab
      have := havoids a b hab
      rw [flatten_cons, identitiesAll_append, mem_append, not_or] at this
      exact this
    have hrenews := renews_cloneAll c block
    obtain ⟨blocks', hlength, hflatten, hcopies⟩ := ih
      (fun b hb => hbodies b (mem_cons_of_mem _ hb)) (fun a b hab => (hsplit a b hab).2)
      (hrenews.issuedIn (fun a b hab => (hsplit a b hab).1) hissued)
    rw [hrenews.image_eq fun a b hab => (hsplit a b hab).1] at hcopies
    refine ⟨((cloneAll block).run c).1 :: blocks', congrArg (· + 1) hlength, ?_, ?_⟩
    · rw [flatten_cons, cloneAll_append, hflatten, flatten_cons]
    · intro b hb
      rcases mem_cons.mp hb with rfl | hb
      · exact hbodies block mem_cons_self c hissued
      · exact hcopies b hb

/-- **Copying a copy gives a copy.** -/
theorem Copies.clone (h : Copies plan true P is is') (hissued : P.IssuedIn c) :
    Copies plan true (P.image c.renewed) is ((cloneAll is').run c).1 := by
  generalize hinner : true = inner at h
  induction h generalizing c with
  | nil => exact .nil
  | @declare _ P Q v v' is is' apart unpaired value grows adds rest ih =>
    have hunpaired := unpaired hinner.symm
    have hrenews := CloneM.renewsTo_declare v' c
    -- the renewal is new to the storage, so nothing stands for it yet
    have hfree := hrenews.unpaired hissued hunpaired
    exact .declare hfree.apart (fun _ => hfree) value (hrenews.image_grows hunpaired grows)
      (hrenews.image_adds hunpaired adds) (ih (hrenews.issuedIn hissued hunpaired adds) hinner)
  | @function _ P name sigs sigs' is is' unpaired rest ih =>
    have havoids := unpaired hinner.symm
    have hrenews := renews_cloneAll c [.function name sigs']
    have hrest := ih (hrenews.issuedIn havoids hissued) hinner
    rw [hrenews.image_eq havoids] at hrest
    exact .function (fun _ => hrenews.not_mem_new hissued) hrest
  | @assign _ P a f is is' names rest ih =>
    show Copies plan _ _ (.assign a :: is) (.assign ((a.rename f).clone c.renewed) :: _)
    rw [Assignment.clone_eq, Assignment.rename_rename]
    exact .assign names.image (ih hissued hinner)
  | @ret _ P value f is is' names rest ih =>
    show Copies plan _ _ (.ret value :: is)
      (.ret (Rvalue.cloneOption c.renewed (Rvalue.renameOption f value)) :: _)
    rw [Rvalue.cloneOption_eq, Rvalue.renameOption_renameOption]
    exact .ret (fun r hr => (names r hr).image) (ih hissued hinner)
  | @branch _ P condition f thenBody thenBody' elseBody elseBody' is is' names thenCopies elseCopies
      rest ihThen ihElse ih =>
    subst hinner
    -- copying a block renews only what the block brings along, which `avoids` keeps apart
    have hthen := renews_cloneAll c thenBody'
    have hissued1 := hthen.issuedIn thenCopies.avoids hissued
    have helse := renews_cloneAll ((cloneAll thenBody').run c).2 elseBody'
    have hissued2 := helse.issuedIn elseCopies.avoids hissued1
    have helseCopies := ihElse hissued1 rfl
    have hrest := ih hissued2 rfl
    rw [helse.image_eq elseCopies.avoids, hthen.image_eq thenCopies.avoids] at hrest
    rw [hthen.image_eq thenCopies.avoids] at helseCopies
    show Copies plan _ _ (.branch condition thenBody elseBody :: is)
      (.branch ((condition.rename f).clone c.renewed) _ _ :: _)
    rw [Rvalue.clone_eq, Rvalue.rename_rename]
    exact .branch names.image (ihThen hissued rfl) helseCopies hrest
  | @loop _ P id id' controls f body body' is is' apart unpaired names bodyCopies rest ihBody ih =>
    subst hinner
    have hunpaired := unpaired rfl
    have hloop := CloneM.renewsTo_newLoop id' c
    have hfree := hloop.unpaired hissued hunpaired
    have hissued1 := hloop.issuedIn hissued hunpaired fun _ _ hQ => hQ
    have hbody := ihBody hissued1 rfl
    rw [hloop.image_add hunpaired] at hbody
    -- the loop and its body are renewed together before the rest is copied
    have hwhole := hloop.toRenews.trans (renews_cloneAll _ body')
    have havoids : ∀ a b, P a b → b ∉ [.loop id'] ++ identitiesAll body' := by
      intro a b hab hmem
      rcases mem_append.mp hmem with hmem | hmem
      · exact (hunpaired a b hab).2 (mem_singleton.mp hmem)
      · exact bodyCopies.avoids a b (.inl hab) hmem
    have hrest := ih (hwhole.issuedIn havoids hissued) rfl
    rw [hwhole.image_eq havoids] at hrest
    show Copies plan _ _ (.loop id controls body :: is)
      (.loop _ ((controls.rename f).clone ((CloneM.newLoop id').run c).2.renewed) _ :: _)
    rw [Controls.clone_eq, Controls.rename_rename]
    exact .loop hfree.apart (fun _ => hfree) names.image hbody hrest
  | jump pair rest ih => exact .jump ⟨_, pair, rfl⟩ (ih hissued hinner)
  | @rvalue _ P r f is is' names rest ih =>
    show Copies plan _ _ (.rvalue r :: is) (.rvalue ((r.rename f).clone c.renewed) :: _)
    rw [Rvalue.clone_eq, Rvalue.rename_rename]
    exact .rvalue names.image (ih hissued hinner)
  | @unrolled _ P id controls body blocks is is' count counter bodies unpaired rest ihBodies ih =>
    have havoids := unpaired hinner.symm
    have hrenews := renews_cloneAll c blocks.flatten
    obtain ⟨blocks', hlength, hflatten, hcopies⟩ := exists_blocks_clone
      (fun block hblock c hc => ihBodies block hblock hc rfl)
      (fun a b hab => havoids a b hab.1) fun a b (hab : P.vars a b) => hissued a b hab.1
    have hrest := ih (hrenews.issuedIn havoids hissued) hinner
    rw [hrenews.image_eq havoids] at hrest
    rw [cloneAll_append, hflatten]
    refine .unrolled (by rw [hlength]; exact count) ?_ ?_ ?_ hrest
    · rintro v hv _ ⟨b, hb, rfl⟩
      exact counter v hv b hb
    · rw [← Pairing.vars_image]
      exact hcopies
    · intro _
      rw [← hflatten]
      exact hrenews.not_mem_new hissued

end

end Shading
