/-
  Shading.Proofs.Read.Kept — where a reading ends, also if it fails.

  A reading that fails has made some of its steps too, and the scope of a signature is closed even
  then.  `ReadM.Ends` says of a computation and a state to start in how the state that it ends in is
  related to the first, whatever comes out of it, and what its errors and its answer are like.
-/
import Shading.Proofs.Read.Document
import Shading.Proofs.Read.Failure
import Shading.Proofs.Read.Frame

namespace Shading

open List ReadM

/-! ## §1. Computations that end in a related state -/

section

variable {T T' : ReadState → ReadState → Prop} {E : ReadError → Prop} {α β : Type}
  {s s' : ReadState} {cx : Context} {node : Node} {Q : α → ReadState → Prop} {x : ReadM α}

/-- From the state, the computation ends in a related one; if it fails, its error is as it should be,
    and if it succeeds, so is its answer. -/
structure ReadM.Ends (T : ReadState → ReadState → Prop) (E : ReadError → Prop) (x : ReadM α)
    (s : ReadState) (Q : α → ReadState → Prop) : Prop where
  related : T s (x.run.run s).2
  fails : ∀ e, (x.run.run s).1 = .error e → E e
  answer : ∀ a, (x.run.run s).1 = .ok a → Q a (x.run.run s).2

theorem ends_of_yields {a : α} (h : Yields x s a s') (hs' : T s s') (hQ : Q a s') :
    x.Ends T E s Q := by
  unfold Yields at h
  refine ⟨by rw [h]; exact hs', ?_, ?_⟩
  · rw [h]
    exact nofun
  · rw [h]
    rintro _ ⟨⟩
    exact hQ

theorem ends_of_error {e : ReadError} (h : x.run.run s = (.error e, s)) (hrefl : T s s) (he : E e) :
    x.Ends T E s Q := by
  refine ⟨by rw [h]; exact hrefl, ?_, ?_⟩
  · rw [h]
    rintro _ ⟨⟩
    exact he
  · rw [h]
    exact nofun

/-- Where a sequence ends: each part keeps the relation. -/
theorem ReadM.Ends.bind {f : α → ReadM β} {P : β → ReadState → Prop} (hx : x.Ends T E s Q)
    (htrans : ∀ s1 s2 s3, T s1 s2 → T s2 s3 → T s1 s3)
    (hf : ∀ a s', Q a s' → T s s' → (f a).Ends T E s' P) : (x >>= f).Ends T E s P := by
  have hrun := run_bind x f s
  cases hresult : (x.run.run s).1 with
  | error e =>
    rw [hresult] at hrun
    refine ⟨by rw [hrun]; exact hx.related, ?_, by rw [hrun]; exact nofun⟩
    rw [hrun]
    rintro _ ⟨⟩
    exact hx.fails e hresult
  | ok a =>
    rw [hresult] at hrun
    have ha := hf a _ (hx.answer a hresult) hx.related
    exact ⟨by rw [hrun]; exact htrans _ _ _ hx.related ha.related, by rw [hrun]; exact ha.fails,
      by rw [hrun]; exact ha.answer⟩

theorem ReadM.Ends.mono {P : α → ReadState → Prop} (hx : x.Ends T E s Q) (hT : ∀ s', T s s' → T' s s')
    (hQ : ∀ a s', Q a s' → P a s') : x.Ends T' E s P :=
  ⟨hT _ hx.related, hx.fails, fun a ha => hQ a _ (hx.answer a ha)⟩

theorem ReadM.Ends.of_yields {a : α} (hx : x.Ends T E s Q) (h : Yields x s a s') : T s s' ∧ Q a s' := by
  have hrelated := hx.related
  have hanswer := hx.answer a
  rw [h] at hrelated hanswer
  exact ⟨hrelated, hanswer rfl⟩

theorem ends_pure (hrefl : T s s) {a : α} (hQ : Q a s) : (pure a : ReadM α).Ends T E s Q :=
  ends_of_yields (yields_pure.mpr ⟨rfl, rfl⟩) hrefl hQ

theorem ends_fail (hrefl : T s s) {p : Problem} (hE : E ⟨p, cx.function, some node⟩) :
    (fail cx node p : ReadM α).Ends T E s Q :=
  ends_of_error rfl hrefl hE

theorem ends_reading (hrefl : T s s) {f : Env → Except ReadError α}
    (hE : ∀ e, f (s.env cx) = .error e → E e) :
    (reading cx f).Ends T E s fun a s' => f (s.env cx) = .ok a ∧ s' = s := by
  cases hvalue : f (s.env cx) with
  | ok a => exact ends_of_yields (yields_reading.mpr ⟨hvalue, rfl⟩) hrefl ⟨rfl, rfl⟩
  | error e =>
    refine ends_of_error ?_ hrefl (hE e hvalue)
    show (reading.liftExcept (f (s.env cx))).run.run s = _
    rw [hvalue]
    rfl

theorem ends_signatures (hrefl : T s s) (slot : Nat) :
    (signatures slot).Ends T E s fun _ s' => s' = s :=
  ends_of_yields (yields_signatures.mpr ⟨rfl, rfl⟩) hrefl rfl

theorem ends_functionSlot {name : String} (hT : T s (s.slot cx name).2) :
    (functionSlot cx name).Ends T E s fun slot s' => s'.Places slot name :=
  ends_of_yields (yields_functionSlot.mpr rfl) hT (places_slot s cx name)

theorem ends_inScope (hx : x.Ends T E s.opened Q) (hclose : ∀ t, T s.opened t → T' s t.closed) :
    (inScope x).Ends T' E s fun _ _ => True :=
  ⟨hclose _ hx.related, hx.fails, fun _ _ => trivial⟩

/-! ## §2. The steps of reading a function -/

/-- Declarations fail with one of their own errors. -/
theorem ends_readDeclarations {nodes : List Node}
    (hT : ∀ done vs s', Declares cx done vs s s' → T s s')
    (hE : ∀ node ∈ nodes, ∀ s : ReadState, ∀ e, readVariable (s.env cx) node = .error e → E e) :
    (readDeclarations cx nodes).Ends T E s fun vs s' => Declares cx nodes vs s s' := by
  -- what is related to the first state, for all states on the way
  suffices hends : (readDeclarations cx nodes).Ends (fun _ s' => T s s') E s
      fun vs s' => Declares cx nodes vs s s' from hends.mono (fun _ h => h) fun _ _ h => h
  generalize T s = F at hT
  induction nodes generalizing s F with
  | nil => exact ends_pure (hT _ _ _ (.nil s)) (.nil s)
  | cons node rest ih =>
    obtain ⟨hnode, hrest⟩ := forall_mem_cons.mp hE
    refine (ends_reading (hT _ _ _ (.nil s)) (hnode s)).bind (fun _ _ _ _ h => h) ?_
    rintro v s ⟨hv, rfl⟩ -
    have hdeclare : (declare v).Ends (fun _ s' => F s') E s fun w s' =>
        w = s.nextVar v ∧ s' = s.declare v :=
      ends_of_yields (yields_declare.mpr ⟨rfl, rfl⟩) (hT _ _ _ (.cons hv (.nil _))) ⟨rfl, rfl⟩
    refine hdeclare.bind (fun _ _ _ _ h => h) ?_
    rintro _ _ ⟨rfl, rfl⟩ -
    refine (ih hrest F fun done vs s' h => hT _ _ _ (.cons hv h)).bind (fun _ _ _ _ h => h) ?_
    exact fun vs s' h hF => ends_pure hF (.cons hv h)

variable {slot : Nat} {name : String}

theorem run_prototype_none (cx : Context) (node : Node)
    (hnone : s.symbols.findFunction? name = none) :
    (prototype cx node name).run.run s = (.error ⟨.notInScope name, cx.function, some node⟩, s) := by
  have hget : (get : ReadM ReadState).run.run s = (.ok s, s) := rfl
  unfold prototype
  simp only [run_bind, hget, hnone]
  rfl

variable {returnType : Ty} {parameters : List Var}

theorem checkRepeated_error (cx : Context) (node : Node) (name : String) {known : Signature}
    (h : ¬ Repeats known returnType parameters) (s : ReadState) :
    ∃ p : Problem, p.isLost = false
      ∧ (checkRepeated cx node name known returnType parameters).run.run s
        = (.error ⟨p, cx.function, some node⟩, s) := by
  unfold checkRepeated
  split
  · exact ⟨_, rfl, rfl⟩
  next hfind =>
    split
    next hty =>
      refine absurd ⟨?_, hty⟩ h
      intro pair hpair
      simpa using List.find?_eq_none.mp hfind pair hpair
    next => exact ⟨_, rfl, rfl⟩

/-- Registering fails before anything has changed. -/
theorem ends_register (hrefl : T s s)
    (hT : ∀ index s', Registers slot name returnType parameters index s s' → T s s')
    (hE : ∀ p : Problem, (p.isLost = true → s.symbols.findFunction? name = none) →
      E ⟨p, cx.function, some node⟩) :
    (register cx node slot name returnType parameters).Ends T E s fun index s' =>
      Registers slot name returnType parameters index s s' := by
  have hyields : ∀ {index : Nat} {s' : ReadState},
      Registers slot name returnType parameters index s s' →
        (register cx node slot name returnType parameters).Ends T E s fun index s' =>
          Registers slot name returnType parameters index s s' :=
    fun h => ends_of_yields (yields_register_iff.mpr h) (hT _ _ h) h
  cases hp : s.symbols.findFunction? name with
  | none =>
    refine ends_of_error ?_ hrefl (hE (.notInScope name) fun _ => hp)
    unfold register signatureIndex
    simp only [run_bind, run_prototype_none cx node hp]
  | some p =>
    cases hm : p.matching? (parameters.map (·.ty)) with
    | none => exact hyields (.added hp hm)
    | some index =>
      by_cases hrep : Repeats ((s.signatures slot)[index]?.getD default) returnType parameters
      · exact hyields (.repeated hp hm hrep)
      · obtain ⟨problem, hlost, hrun⟩ := checkRepeated_error cx node name hrep s
        refine ends_of_error ?_ hrefl (hE problem fun h => by rw [hlost] at h; cases h)
        have hprototype : (prototype cx node name).run.run s = (.ok p, s) :=
          yields_prototype.mpr ⟨hp, rfl⟩
        have hknown : (signatures slot).run.run s = (.ok (s.signatures slot), s) := rfl
        unfold register signatureIndex
        simp only [run_bind, hprototype, hknown, hm, hrun]

theorem ends_define {index : Nat} {body : List Instruction} (hrefl : T s s)
    (hT : (s.symbols.findFunction? name).isSome → T s (s.complete slot name index body))
    (hE : s.symbols.findFunction? name = none → E ⟨.notInScope name, cx.function, some node⟩) :
    (define cx node slot index name body).Ends T E s fun _ _ => True := by
  cases hp : s.symbols.findFunction? name with
  | none =>
    refine ends_of_error ?_ hrefl (hE hp)
    unfold define modifyPrototype
    simp only [run_bind, run_prototype_none cx node hp]
  | some p =>
    have hbound : (s.symbols.findFunction? name).isSome := by
      rw [hp]
      rfl
    exact ends_of_yields (a := ()) (yields_define.mpr ⟨hbound, rfl⟩) (hT hbound) trivial

end

/-! ## §3. The second pass over a document -/

section

variable {α β γ δ : Type} {s s' : ReadState}

/-- A sequence fails in its first or in its second part. -/
theorem run_bind_eq_error {x : ReadM α} {f : α → ReadM β} {e : ReadError} :
    (x >>= f).run.run s = (.error e, s')
      ↔ x.run.run s = (.error e, s')
        ∨ ∃ a s1, Yields x s a s1 ∧ (f a).run.run s1 = (.error e, s') := by
  unfold Yields
  rw [run_bind]
  rcases x.run.run s with ⟨e' | a, s1⟩
  · constructor
    · intro h
      cases h
      exact .inl rfl
    · rintro (h | ⟨a, s2, h, -⟩)
      · cases h
        rfl
      · cases h
  · constructor
    · intro h
      exact .inr ⟨a, s1, rfl, h⟩
    · rintro (h | ⟨a', s2, h, hf⟩)
      · cases h
      · cases h
        exact hf

theorem run_reading_of_error {f : Env → Except ReadError α} {e : ReadError}
    (h : f (s.env cx) = .error e) : (reading cx f).run.run s = (.error e, s) := by
  show (reading.liftExcept (f (s.env cx))).run.run s = _
  rw [h]
  rfl

theorem run_reading_eq_error {f : Env → Except ReadError α} {e : ReadError}
    (h : (reading cx f).run.run s = (.error e, s')) : f (s.env cx) = .error e ∧ s' = s := by
  cases hvalue : f (s.env cx) with
  | ok a =>
    rw [yields_reading.mpr ⟨hvalue, rfl⟩] at h
    cases h
  | error e' =>
    rw [run_reading_of_error hvalue] at h
    cases h
    exact ⟨rfl, rfl⟩

/-- From the state, the computations end in the same one, and fail with the same error or not at
    all. -/
def ReadM.Alike (x : ReadM α) (y : ReadM β) (s : ReadState) : Prop :=
  (x.run.run s).2 = (y.run.run s).2
    ∧ (x.run.run s).1.map (fun _ => ()) = (y.run.run s).1.map fun _ => ()

/-- Two readings that differ in their results only go on alike. -/
theorem ReadM.Alike.bind {x : ReadM α} {y : ReadM β} {f : α → ReadM γ} {g : β → ReadM δ}
    (h : x.Alike y s)
    (hfg : ∀ a b s', Yields x s a s' → Yields y s b s' → (f a).Alike (g b) s') :
    (x >>= f).Alike (y >>= g) s := by
  unfold ReadM.Alike at h hfg ⊢
  rw [run_bind, run_bind]
  unfold Yields at hfg
  generalize x.run.run s = runx at h hfg
  generalize y.run.run s = runy at h hfg
  obtain ⟨ex | a, s1⟩ := runx <;> obtain ⟨ey | b, s2⟩ := runy
  · exact h
  · cases h.2
  · cases h.2
  · obtain rfl : s1 = s2 := h.1
    exact hfg a b s1 rfl rfl

theorem ReadM.Alike.refl (x : ReadM α) (s : ReadState) : x.Alike x s := ⟨rfl, rfl⟩

theorem ReadM.Alike.symm {x : ReadM α} {y : ReadM β} (h : x.Alike y s) : y.Alike x s :=
  ⟨h.1.symm, h.2.symm⟩

theorem ReadM.Alike.error {x : ReadM α} {y : ReadM β} {e : ReadError} (h : x.Alike y s)
    (hx : x.run.run s = (.error e, s')) : y.run.run s = (.error e, s') := by
  unfold ReadM.Alike at h
  rw [hx] at h
  generalize y.run.run s = run at h
  obtain ⟨e' | b, s1⟩ := run
  · obtain ⟨rfl, he⟩ := h
    cases he
    rfl
  · cases h.2

theorem ReadM.Alike.yields {x : ReadM α} {y : ReadM β} {a : α} (h : x.Alike y s)
    (hx : Yields x s a s') : ∃ b, Yields y s b s' := by
  unfold ReadM.Alike at h
  unfold Yields at hx ⊢
  rw [hx] at h
  generalize y.run.run s = run at h ⊢
  obtain ⟨e' | b, s1⟩ := run
  · cases h.2
  · obtain rfl : s' = s1 := h.1
    exact ⟨b, rfl⟩

theorem alike_bind_pure (x : ReadM α) (f : α → β) (s : ReadState) :
    (x >>= fun a => pure (f a)).Alike x s := by
  have hx : (x >>= fun a => pure (f a)).Alike (x >>= pure) s :=
    (ReadM.Alike.refl x s).bind fun _ _ _ _ _ => ⟨rfl, rfl⟩
  rwa [bind_pure] at hx

theorem alike_readTop (cx : Context) (node : Node) (s : ReadState) :
    (Read.readTop cx node).Alike (readInstruction cx node) s := by
  cases hfun : node.isFunction with
  | false =>
    rw [readTop_other hfun]
    exact alike_bind_pure _ _ s
  | true =>
    obtain ⟨parts, rfl⟩ := Node.isFunction_iff.mp hfun
    rw [Read.readTop, readInstruction]
    exact (ReadM.Alike.refl _ s).bind fun _ _ _ _ _ => ⟨rfl, rfl⟩

/-- **The top level of a document is read like a block of the same nodes.** -/
theorem alike_readItems (cx : Context) (placed : List Nat) (seen : Nat) (nodes : List Node)
    (s : ReadState) :
    (Read.readItems cx placed seen nodes).Alike (readInstructions cx nodes) s := by
  induction nodes generalizing placed seen s with
  | nil => exact ⟨rfl, rfl⟩
  | cons node rest ih =>
    rw [Read.readItems, readInstructions]
    refine (alike_readTop cx node s).bind fun top i s1 _ _ => ?_
    exact (ih _ _ s1).bind fun _ _ _ _ _ => ⟨rfl, rfl⟩

end

end Shading
