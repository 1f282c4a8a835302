/-
  Shading.Proofs.Read.Safe — what reading keeps even if it fails.

  A derivation says what a reading that succeeds does to the state.  A reading that fails leaves a
  state too, and a caller goes on with the symbol table that it left.  `Continues` is what holds between
  the states before and after any reading: functions and prototypes are in step, overloads are never
  taken away, functions keep their places.  `Proceeds` says it together with any relation that each
  single step keeps.
-/
import Shading.Proofs.Read.Kept
import Shading.Proofs.Read.Prototypes
import Shading.Proofs.Read.Watch

namespace Shading

open List ReadM

/-! ## §1. Names of functions -/

/-- Every function is bound to its own name. -/
def SymbolTable.Named (t : SymbolTable) : Prop :=
  ∀ b ∈ t.functionScopes, ∀ entry ∈ b, entry.2.name = entry.1

theorem SymbolTable.Named.functions {t : SymbolTable} (h : t.Named) :
    t.Functions fun name p => p.name = name := h


variable {name : String}

/-! ## §2. States that are kept -/

/-- Functions and prototypes are in step, and functions are bound in the scope of the module; or no
    scope is open, and the first that is opened will be that of the module. -/
structure ReadState.Held (d : Nat) (s : ReadState) : Prop where
  inStep : s.InStep
  root : s.Rooted (max 1 d) ∨ (d = 0 ∧ s.symbols.scopes = [])

/-- The second state comes after the first: whatever was read in between, and whether it succeeded
    or not. -/
structure Continues (d : Nat) (s s' : ReadState) : Prop where
  held : s'.Held d
  length : s.symbols.scopes ≠ [] → s'.symbols.scopes.length = s.symbols.scopes.length
  grows : s.symbols.Grows s'.symbols
  names : s.functionNames <+: s'.functionNames
  named : s.symbols.Named → s'.symbols.Named

variable {slot index : Nat}

namespace ReadState.Held

variable {d : Nat} {s : ReadState}

theorem rooted (h : s.Held d) (hopen : s.symbols.scopes ≠ []) : s.Rooted (max 1 d) :=
  h.root.resolve_right fun hnil => hopen hnil.2

theorem of_symbols {s' : ReadState} (h : s.Held d) (hsymbols : s'.symbols = s.symbols)
    (hfunctions : s'.functions = s.functions) : s'.Held d := by
  have hnames : s'.functionNames = s.functionNames := by
    unfold ReadState.functionNames
    rw [hfunctions]
  refine ⟨⟨hnames ▸ h.inStep.nodup, ?_⟩, ?_⟩
  · rw [hfunctions, hsymbols]
    exact h.inStep.agree
  · rcases h.root with hroot | hnil
    · exact .inl (hroot.of_eq (by rw [hsymbols]) (by rw [hsymbols]))
    · exact .inr (hsymbols ▸ hnil)

/-- A function in a slot has its prototype in scope. -/
theorem exists_prototype (h : s.Held d) (hplace : s.Places slot name) :
    ∃ p, s.symbols.findFunction? name = some p
      ∧ p.overloads.length = (s.signatures slot).length := by
  obtain ⟨f, hf, rfl, -⟩ := hplace.exists_function
  obtain ⟨p, hp, -⟩ := h.inStep.agree f (mem_of_getElem? hf)
  refine ⟨p, hp, ?_⟩
  rw [h.inStep.overloads hplace hp, length_map]

theorem ne_nil (h : s.Held d) (hplace : s.Places slot name) : s.symbols.scopes ≠ [] := by
  obtain ⟨p, hp, -⟩ := h.exists_prototype hplace
  have hbound : (s.symbols.findFunction? name).isSome := by
    rw [hp]
    rfl
  exact scopes_ne_nil_of_findFunction? hbound

theorem hasOverload (h : s.Held d) (hplace : s.Places slot name)
    (hlt : index < (s.signatures slot).length) : s.hasOverload slot name index = true := by
  obtain ⟨p, hp, hlen⟩ := h.exists_prototype hplace
  simp [ReadState.hasOverload, hp, hlen, hlt]

end ReadState.Held

namespace Continues

variable {d : Nat} {s s1 s2 : ReadState}

theorem refl (h : s.Held d) : Continues d s s :=
  ⟨h, fun _ => rfl, .refl _, prefix_refl _, id⟩

theorem ne_nil (h : Continues d s s1) (hopen : s.symbols.scopes ≠ []) : s1.symbols.scopes ≠ [] := by
  rw [← length_pos_iff, h.length hopen, length_pos_iff]
  exact hopen

theorem trans (h1 : Continues d s s1) (h2 : Continues d s1 s2) : Continues d s s2 :=
  ⟨h2.held, fun hopen => (h2.length (h1.ne_nil hopen)).trans (h1.length hopen),
    h1.grows.trans h2.grows, h1.names.trans h2.names, h2.named ∘ h1.named⟩

theorem of_symbols (h : s.Held d) (hsymbols : s1.symbols = s.symbols)
    (hfunctions : s1.functions = s.functions) : Continues d s s1 := by
  refine ⟨h.of_symbols hsymbols hfunctions, fun _ => by rw [hsymbols],
    by rw [hsymbols]; exact .refl _, ?_, by rw [hsymbols]; exact id⟩
  have hnames : s1.functionNames = s.functionNames := by
    unfold ReadState.functionNames
    rw [hfunctions]
  exact hnames ▸ prefix_refl _

theorem of_evolves (h : Evolves (max 1 d) s s1) (hnames : s.functionNames <+: s1.functionNames)
    (hnamed : s.symbols.Named → s1.symbols.Named) : Continues d s s1 :=
  ⟨⟨h.inStep, .inl h.rooted⟩, fun _ => h.length, h.grows, hnames, hnamed⟩

theorem evolves (h : Continues d s s1) (hopen : s.symbols.scopes ≠ []) : Evolves (max 1 d) s s1 :=
  ⟨h.held.rooted (h.ne_nil hopen), h.length hopen, h.held.inStep, h.grows⟩

theorem places (h : Continues d s s1) (hplace : s.Places slot name) : s1.Places slot name :=
  hplace.of_prefix h.names

/-- An overload stays where it is. -/
theorem hasOverload (h : Continues d s s1) (hplace : s.Places slot name)
    (hhas : s.hasOverload slot name index = true) : s1.hasOverload slot name index = true := by
  obtain ⟨p, hp, hlt⟩ :
      ∃ p, s.symbols.findFunction? name = some p ∧ index < p.overloads.length := by
    unfold ReadState.hasOverload at hhas
    rw [Bool.and_eq_true, Option.any_eq_true] at hhas
    obtain ⟨-, p, hp, hlt⟩ := hhas
    exact ⟨p, hp, of_decide_eq_true hlt⟩
  obtain ⟨q, hq, hpq⟩ := h.grows name p hp
  obtain ⟨o, ho, -, -⟩ := hpq.overload index _ (getElem?_eq_getElem hlt)
  obtain ⟨q', hq', hlen⟩ := h.held.exists_prototype (h.places hplace)
  obtain rfl : q' = q := Option.some.inj (hq'.symm.trans hq)
  have hindex := (List.getElem?_eq_some_iff.mp ho).1
  exact h.held.hasOverload (h.places hplace) (by omega)

end Continues

/-! ## §3. The changes of the state -/

variable {returnType : Ty} {parameters : List Var} {s : ReadState}

/-- **Each change that the reader makes keeps all of it**, where a scope is open. -/
theorem continues_frame (d : Nat) :
    Frame (max 1 d) fun s s' => s.Rooted (max 1 d) → s.InStep → Continues d s s' where
  refl := fun s hr hi => .refl ⟨hi, .inl hr⟩
  trans := by
    intro s1 s2 s3 h1 h2 hr hi
    have k1 := h1 hr hi
    have e1 := k1.evolves hr.ne_nil
    exact k1.trans (h2 e1.rooted e1.inStep)
  takeLoop := fun s hr hi =>
    .of_evolves ((evolves_frame _).takeLoop s hr hi) (prefix_refl _) id
  declare := by
    intro s v hopen hr hi
    refine .of_evolves ((evolves_frame _).declare s v hopen hr hi) (prefix_refl _) ?_
    intro hnamed
    show ∀ b ∈ (s.symbols.addVariable _).2.functionScopes, _
    rw [SymbolTable.functionScopes_addVariable _ _ hopen]
    exact hnamed
  slot := by
    intro s cx name hd hopen hr hi
    exact .of_evolves ((evolves_frame _).slot s cx name hd hopen hr hi)
      (functionNames_slot s cx name) fun hnamed => hnamed.functions.slot cx rfl
  registers := by
    intro slot name returnType parameters index s s' hplace _ hreg hr hi
    exact .of_evolves (evolves_registers hplace hreg hr hi)
      (functionNames_registers hreg ▸ prefix_refl _) fun hnamed =>
        hnamed.functions.registers hreg (fun _ hp => hp) fun _ hp => hp
  complete := by
    intro s slot name index body hplace hbound hr hi
    have hnames : (s.complete slot name index body).functionNames = s.functionNames :=
      functionNames_onFunction _ _ _ _ _
    exact .of_evolves ((evolves_frame _).complete s slot name index body hplace hbound hr hi)
      (hnames ▸ prefix_refl _) fun hnamed =>
        hnamed.functions.modifyFunction name fun _ hp => hp
  scope := by
    intro s s' hopen h hr hi
    -- opening a scope binds nothing, and closing it takes away variables only
    have hopened : s.opened.InStep := ⟨hi.nodup, hi.agree⟩
    have k := h hr.opened hopened
    have e := (evolves_frame (max 1 d)).scope s s' hopen
      (fun _ _ => k.evolves hr.opened.ne_nil) hr hi
    exact .of_evolves e k.names fun hnamed =>
      (k.named hnamed.functions.push).functions.pop

theorem slot_clamped (s : ReadState) (cx : Context) (name : String) :
    s.slot { cx with globalDepth := max 1 cx.globalDepth } name = s.slot cx name := by
  have hclamp : ∀ n : Nat, max 1 (min (max 1 cx.globalDepth) n) = max 1 (min cx.globalDepth n) := by
    intro n
    omega
  unfold ReadState.slot SymbolTable.addFunctionAt
  simp only [hclamp]

theorem slot_unopened (cx : Context) (name : String) (hnil : s.symbols.scopes = [])
    (hfunctions : s.functions = []) :
    ({ s with symbols := .empty } : ReadState).slot cx name = s.slot cx name := by
  have hopened : s.symbols.opened = .empty := by
    unfold SymbolTable.opened
    rw [hnil]
  have hnone : s.symbols.findFunction? name = none := by
    simp [SymbolTable.findFunction?, hnil]
  have hnone' : SymbolTable.empty.findFunction? name = none := rfl
  unfold ReadState.slot SymbolTable.addFunctionAt
  rw [hnone, hopened, hfunctions]
  simp only [hnone', findIdx?_nil]
  rfl

variable {cx : Context}

/-- Asking for a slot loses nothing that is held. -/
theorem continues_slot {d : Nat} (h : s.Held d) (hd : cx.globalDepth = d) (name : String) :
    Continues d s (s.slot cx name).2 := by
  have hopened : ∀ t : ReadState, t.Rooted (max 1 d) → t.InStep → Continues d t (t.slot cx name).2 := by
    intro t hr hi
    rw [← slot_clamped]
    exact (continues_frame d).slot t _ name (by rw [← hd]) hr.ne_nil hr hi
  rcases h.root with hr | ⟨rfl, hnil⟩
  · exact hopened s hr h.inStep
  · -- no function was met yet, so an empty scope changes nothing
    have hnone : ∀ other, s.symbols.findFunction? other = none := by
      intro other
      simp [SymbolTable.findFunction?, hnil]
    have hfunctions : s.functions = [] := by
      apply eq_nil_iff_forall_not_mem.mpr
      intro f hf
      obtain ⟨p, hp, -⟩ := h.inStep.agree f hf
      rw [hnone] at hp
      cases hp
    have k := hopened { s with symbols := .empty }
      ⟨Nat.le_refl 1, Nat.le_refl 1, fun i hi => absurd hi (Nat.not_lt_zero i)⟩
      ⟨h.inStep.nodup, fun f hf => by rw [hfunctions] at hf; cases hf⟩
    rw [slot_unopened cx name hnil hfunctions] at k
    refine ⟨k.held, fun hopen => absurd hnil hopen, ?_, k.names, fun hnamed => ?_⟩
    · intro other p hp
      rw [hnone] at hp
      cases hp
    · exact hnamed.functions.slot cx rfl

/-! ## §4. Relations between states next to what is kept -/

/-- The second state comes after the first, and is related to it if a scope was open. -/
structure Proceeds (d : Nat) (T : ReadState → ReadState → Prop) (s s' : ReadState) : Prop
    extends Continues d s s' where
  related : s.symbols.scopes ≠ [] → T s s'

/-- What is related inside of functions by `R` is related by `T` if it happens in functions only:
    there variables are bound in scopes that are closed again. -/
structure Seals (d : Nat) (R T : ReadState → ReadState → Prop) : Prop where
  refl : ∀ s, T s s
  trans : ∀ s1 s2 s3, T s1 s2 → T s2 s3 → T s1 s3
  slot : ∀ s cx name, cx.globalDepth = d → s.symbols.scopes ≠ [] → T s (s.slot cx name).2
  scope : ∀ s s', s.symbols.scopes ≠ [] → R s.opened s' → T s s'.closed
  inner : ∀ s s', T s s' → R s s'

variable {d : Nat} {R T : ReadState → ReadState → Prop}

theorem Frame.seals (hR : Frame d R) : Seals d R R :=
  ⟨hR.refl, hR.trans, hR.slot, hR.scope, fun _ _ h => h⟩

namespace Proceeds

theorem refl (hs : s.Held d) (hT : T s s) : Proceeds d T s s := ⟨.refl hs, fun _ => hT⟩

theorem trans (hT : ∀ s1 s2 s3, T s1 s2 → T s2 s3 → T s1 s3) (s1 s2 s3 : ReadState)
    (h1 : Proceeds d T s1 s2) (h2 : Proceeds d T s2 s3) : Proceeds d T s1 s3 :=
  ⟨h1.toContinues.trans h2.toContinues, fun hopen =>
    hT _ _ _ (h1.related hopen) (h2.related (h1.ne_nil hopen))⟩

end Proceeds

/-- Where a scope is open, a step that keeps everything leads to a related state. -/
theorem Frame.proceeds (hR : Frame (max 1 d) R) {s' : ReadState} (hs : s.Held d)
    (hopen : s.symbols.scopes ≠ [])
    (h : ∀ {T : ReadState → ReadState → Prop}, Frame (max 1 d) T → T s s') : Proceeds d R s s' :=
  ⟨h (continues_frame d) (hs.rooted hopen) hs.inStep, fun _ => h hR⟩

theorem signatures_added (hplace : s.Places slot name) (returnType : Ty) (parameters : List Var)
    (index : Nat) :
    (((s.addOverload slot name returnType).setParameters slot name index parameters).signatures
      slot).length = (s.signatures slot).length + 1 := by
  have hadd : (s.addOverload slot name returnType).Places slot name := hplace.onFunction _ _ _ _
  rw [ReadState.setParameters, ReadState.signatures_onFunction hadd, ReadState.addOverload,
    ReadState.signatures_onFunction hplace, length_modify, length_append]
  rfl

/-- An overload that was registered is there. -/
theorem hasOverload_registers {s' : ReadState} (hs : s.Held d) (hplace : s.Places slot name)
    (hreg : Registers slot name returnType parameters index s s') (k : Continues d s s') :
    s'.hasOverload slot name index = true := by
  cases hreg with
  | repeated bound known repeats =>
    obtain ⟨p, hp, hlen⟩ := hs.exists_prototype hplace
    obtain rfl := Option.some.inj (bound.symm.trans hp)
    obtain ⟨o, ho, -⟩ := Prototype.matching?_eq_some known
    have hlt := (List.getElem?_eq_some_iff.mp ho).1
    exact k.hasOverload hplace (hs.hasOverload hplace (by omega))
  | added bound unknown =>
    -- a new overload stands behind the others
    refine k.held.hasOverload (k.places hplace) ?_
    rw [signatures_added hplace]
    exact Nat.lt_succ_self _

end Shading
