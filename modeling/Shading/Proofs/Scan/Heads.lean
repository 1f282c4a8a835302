/-
  Shading.Proofs.Scan.Heads — what signatures fix, once and for all.

  A signature may be repeated, with the return type, the parameter types and the qualifiers that it
  had; only the names of its parameters may change.  What cannot change is the `head` of an overload.
  The heads of a function are all that decides where a signature is registered, and whether it may
  be.
-/
import Shading.Proofs.Read.Scoped
import Shading.Proofs.Scan.Blocks

namespace Shading

open List

/-! ## §1. Heads -/

/-- What a parameter has to repeat: all but its name. -/
def Variable.unnamed (v : Variable) : Variable := { v with name := "" }

theorem Variable.unnamed_eq_iff {v w : Variable} :
    v.unnamed = w.unnamed ↔ v.ty = w.ty ∧ v.sameQualifiers w = true := by
  obtain ⟨name, ty, centroid, invariant, mode, interpolation⟩ := v
  obtain ⟨name', ty', centroid', invariant', mode', interpolation'⟩ := w
  simp only [unnamed, sameQualifiers, Variable.mk.injEq, Bool.and_eq_true, beq_iff_eq, true_and]
  constructor
  · rintro ⟨hty, hcentroid, hinvariant, hmode, hinterpolation⟩
    exact ⟨hty, ⟨⟨hmode, hinterpolation⟩, hcentroid⟩, hinvariant⟩
  · rintro ⟨hty, ⟨⟨hmode, hinterpolation⟩, hcentroid⟩, hinvariant⟩
    exact ⟨hty, hcentroid, hinvariant, hmode, hinterpolation⟩

/-- What an overload has to repeat. -/
structure Head where
  returnType : Ty
  parameters : List Variable

/-- The types of the parameters. -/
def Head.types (h : Head) : List Ty := h.parameters.map (·.ty)

/-- What a signature with this return type and these parameters says. -/
def Head.of (returnType : Ty) (parameters : List Var) : Head :=
  ⟨returnType, parameters.map (·.value.unnamed)⟩

/-- What the overload has to repeat. -/
def Overload.head (o : Overload) : Head := .of o.returnType o.parameters

/-- What the overloads of the function have to repeat. -/
def Prototype.heads (p : Prototype) : List Head := p.overloads.map (·.head)

theorem Head.types_of (returnType : Ty) (parameters : List Var) :
    (Head.of returnType parameters).types = parameters.map (·.ty) := by
  simp only [types, of, map_map]
  rfl

theorem Prototype.matching?_eq (p : Prototype) (types : List Ty) :
    p.matching? types = p.heads.findIdx? (·.types = types) := by
  rw [Prototype.matching?, Prototype.heads, findIdx?_map]
  congr 1
  funext o
  show decide (o.types = types) = decide (o.head.types = types)
  rw [Overload.head, Head.types_of]
  rfl

theorem Head.of_map {f : Var → Var} (hf : Renumbers f) (returnType : Ty) (parameters : List Var) :
    Head.of returnType (parameters.map f) = Head.of returnType parameters := by
  unfold Head.of
  rw [map_map]
  congr 2
  funext v
  exact congrArg Variable.unnamed (hf v)

theorem Head.of_congr {vs ws : List Var} (h : vs.map (·.value) = ws.map (·.value))
    (returnType : Ty) : Head.of returnType vs = Head.of returnType ws := by
  have hmap : ∀ us : List Var, us.map (·.value.unnamed) = (us.map (·.value)).map (·.unnamed) := by
    intro us
    rw [map_map]
    rfl
  rw [Head.of, Head.of, hmap, hmap, h]

/-- A signature repeats a known one if the heads agree. -/
theorem repeats_iff {known : Signature} {returnType : Ty} {parameters : List Var}
    (htypes : known.parameters.map (·.ty) = parameters.map (·.ty)) :
    ReadM.Repeats known returnType parameters
      ↔ known.overload.head = .of returnType parameters := by
  have hpairs : ∀ vs ws : List Var, vs.map (·.ty) = ws.map (·.ty) →
      ((∀ pair ∈ vs.zip ws, pair.1.value.sameQualifiers pair.2.value)
        ↔ vs.map (·.value.unnamed) = ws.map (·.value.unnamed)) := by
    intro vs
    induction vs with
    | nil =>
      intro ws hws
      cases ws with
      | nil => simp
      | cons w ws => cases hws
    | cons v vs ih =>
      intro ws hws
      cases ws with
      | nil => cases hws
      | cons w ws =>
        obtain ⟨hty, hrest⟩ := cons.inj hws
        rw [zip_cons_cons, forall_mem_cons, ih ws hrest, map_cons, map_cons,
          cons.injEq, Variable.unnamed_eq_iff]
        exact and_congr_left fun _ => (and_iff_right hty).symm
  unfold ReadM.Repeats
  rw [hpairs _ _ htypes]
  show _ ↔ (⟨known.returnType, known.parameters.map (·.value.unnamed)⟩ : Head)
    = ⟨returnType, parameters.map (·.value.unnamed)⟩
  rw [Head.mk.injEq, and_comm]

/-! ## §2. The first overload with the types -/

/-- The head stands at this place, and none before it has its types. -/
def FirstAt (heads : List Head) (h : Head) (i : Nat) : Prop :=
  heads.findIdx? (·.types = h.types) = some i ∧ heads[i]? = some h

variable {i : Nat}

theorem findIdx?_of_isPrefix {α : Type} {xs ys : List α} {p : α → Bool} (hpre : xs <+: ys)
    (h : xs.findIdx? p = some i) : ys.findIdx? p = some i := by
  obtain ⟨more, rfl⟩ := hpre
  rw [findIdx?_append, h]
  rfl

theorem getElem?_of_isPrefix {α : Type} {xs ys : List α} {a : α} (hpre : xs <+: ys)
    (h : xs[i]? = some a) : ys[i]? = some a := by
  obtain ⟨more, rfl⟩ := hpre
  rw [getElem?_append_left (List.getElem?_eq_some_iff.mp h).1, h]

variable {hs : List Head} {h : Head}

theorem FirstAt.mono {hs' : List Head} (hi : FirstAt hs h i) (hpre : hs <+: hs') :
    FirstAt hs' h i :=
  ⟨findIdx?_of_isPrefix hpre hi.1, getElem?_of_isPrefix hpre hi.2⟩

theorem firstAt_append_singleton :
    FirstAt (hs ++ [h]) h i
      ↔ FirstAt hs h i ∨ (hs.findIdx? (·.types = h.types) = none ∧ i = hs.length) := by
  constructor
  · rintro ⟨hfind, hget⟩
    cases hold : hs.findIdx? (·.types = h.types) with
    | some j =>
      have hij := findIdx?_of_isPrefix (prefix_append hs [h]) hold
      obtain rfl : j = i := Option.some.inj (hij.symm.trans hfind)
      have hlt : j < hs.length := (findIdx?_eq_some_iff_getElem.mp hold).1
      rw [getElem?_append_left hlt] at hget
      exact .inl ⟨hold, hget⟩
    | none =>
      rw [findIdx?_append, hold] at hfind
      refine .inr ⟨rfl, ?_⟩
      simpa [findIdx?_cons] using hfind.symm
  · rintro (hi | ⟨hnone, rfl⟩)
    · exact hi.mono (prefix_append hs [h])
    · refine ⟨?_, ?_⟩
      · rw [findIdx?_append, hnone]
        simp [findIdx?_cons]
      · rw [getElem?_append_right (Nat.le_refl _), Nat.sub_self]
        rfl

/-! ## §3. Where an overload is registered -/

/-- The second prototype has the heads of the first, and more behind them. -/
structure Prototype.Leads (p q : Prototype) : Prop where
  name : q.name = p.name
  heads : p.heads <+: q.heads

variable {p : Prototype}

namespace Prototype.Leads

theorem refl (p : Prototype) : p.Leads p := ⟨rfl, prefix_refl _⟩

theorem trans {q r : Prototype} (h1 : p.Leads q) (h2 : q.Leads r) : p.Leads r :=
  ⟨h2.name.trans h1.name, h1.heads.trans h2.heads⟩

theorem grows {q : Prototype} (h : p.Leads q) : p.Grows q := by
  refine ⟨h.name, ?_⟩
  intro i o ho
  have hhead : p.heads[i]? = some o.head := by rw [Prototype.heads, getElem?_map, ho]; rfl
  have hhead' := getElem?_of_isPrefix h.heads hhead
  rw [Prototype.heads, getElem?_map, Option.map_eq_some_iff] at hhead'
  obtain ⟨o', ho', heq⟩ := hhead'
  refine ⟨o', ho', ?_, congrArg Head.returnType heq⟩
  have htypes := congrArg Head.types heq
  rw [Overload.head, Head.types_of, Overload.head, Head.types_of] at htypes
  exact htypes

end Prototype.Leads

theorem Prototype.heads_modify {f : Overload → Overload}
    (h : ∀ o, p.overloads[i]? = some o → (f o).head = o.head) : (p.modify i f).heads = p.heads := by
  apply ext_getElem?
  intro j
  simp only [Prototype.heads, Prototype.modify, getElem?_map, getElem?_modify]
  by_cases hij : i = j
  · subst hij
    cases ho : p.overloads[i]? with
    | none => rfl
    | some o => simp [h o ho]
  · simp [hij]

theorem Prototype.heads_completed (p : Prototype) (i : Nat) :
    (p.modify i ({ · with isDefined := true })).heads = p.heads :=
  heads_modify fun _ _ => rfl

theorem Prototype.heads_add (p : Prototype) (o : Overload) :
    (p.add o).heads = p.heads ++ [o.head] := by
  simp [Prototype.heads, Prototype.add]

variable {s : ReadState} {slot : Nat} {name : String}

theorem ReadState.InStep.getElem? (h : s.InStep) (hplace : s.Places slot name)
    (hp : s.symbols.findFunction? name = some p) (i : Nat) :
    p.overloads[i]? = (s.signatures slot)[i]?.map (·.overload) := by
  rw [h.overloads hplace hp, getElem?_map]

section

variable {slot : Nat} {name : String} {returnType : Ty} {parameters : List Var} {index : Nat}
  {s s' : ReadState}

/-- What a registered signature did to its prototype. -/
theorem Registers.inversion (h : Registers slot name returnType parameters index s s')
    (hi : s.InStep) (hplace : s.Places slot name) :
    ∃ p p', s.symbols.findFunction? name = some p
      ∧ (∀ other, s'.symbols.findFunction? other
          = if other = name then some p' else s.symbols.findFunction? other)
      ∧ ((FirstAt p.heads (.of returnType parameters) index
            ∧ p' = p.modify index ({ · with parameters }) ∧ p'.heads = p.heads)
        ∨ (p.heads.findIdx? (·.types = (Head.of returnType parameters).types) = none
            ∧ index = p.overloads.length ∧ p' = p.add ⟨returnType, parameters, false⟩)) := by
  cases h with
  | @repeated p _ _ bound known repeats =>
    refine ⟨p, p.modify index ({ · with parameters }), bound, ?_, .inl ?_⟩
    · intro other
      rw [ReadState.setParameters, ReadState.onFunction, SymbolTable.findFunction?_modifyFunction]
      split
      next heq => rw [heq, bound]; rfl
      next => rfl
    · obtain ⟨o, ho, htypes⟩ := Prototype.matching?_eq_some known
      have hmet := hi.getElem? hplace bound index
      rw [ho] at hmet
      obtain ⟨sig, hsig, hoverload⟩ := Option.map_eq_some_iff.mp hmet.symm
      rw [hsig, Option.getD_some, repeats_iff (by rw [← htypes, ← hoverload]; rfl), hoverload]
        at repeats
      refine ⟨⟨?_, ?_⟩, rfl, ?_⟩
      · rw [Head.types_of, ← Prototype.matching?_eq]
        exact known
      · rw [Prototype.heads, getElem?_map, ho, Option.map_some, repeats]
      · apply Prototype.heads_modify
        intro o' ho'
        obtain rfl : o' = o := Option.some.inj (ho'.symm.trans ho)
        rw [repeats]
        show Head.of o'.returnType parameters = Head.of returnType parameters
        rw [show o'.returnType = returnType from congrArg Head.returnType repeats]
  | @added p _ bound unknown =>
    have hlen : (s.signatures slot).length = p.overloads.length := by
      rw [hi.overloads hplace bound, length_map]
    refine ⟨p, p.add ⟨returnType, parameters, false⟩, bound, ?_, .inr ⟨?_, hlen, rfl⟩⟩
    · intro other
      rw [ReadState.setParameters, ReadState.onFunction, SymbolTable.findFunction?_modifyFunction,
        ReadState.addOverload, ReadState.onFunction, SymbolTable.findFunction?_modifyFunction]
      split
      next heq =>
        rw [heq, bound, hlen]
        simp only [Option.map_some, Prototype.add, Prototype.modify]
        rw [modify_append_length]
      next => rfl
    · rw [Head.types_of, ← Prototype.matching?_eq]
      exact unknown

/-- **An overload is registered where its head comes first.** -/
theorem Registers.first (h : Registers slot name returnType parameters index s s')
    (hi : s.InStep) (hplace : s.Places slot name) :
    ∃ p p', s.symbols.findFunction? name = some p ∧ s'.symbols.findFunction? name = some p'
      ∧ FirstAt (p.heads ++ [.of returnType parameters]) (.of returnType parameters) index
      ∧ FirstAt p'.heads (.of returnType parameters) index ∧ p.Leads p' := by
  obtain ⟨p, p', hp, hfind, hcases⟩ := h.inversion hi hplace
  refine ⟨p, p', hp, by rw [hfind, if_pos rfl], ?_⟩
  rcases hcases with ⟨hfirst, rfl, hheads⟩ | ⟨hnone, rfl, rfl⟩
  · rw [hheads]
    exact ⟨firstAt_append_singleton.mpr (.inl hfirst), hfirst, rfl,
      hheads.symm ▸ prefix_refl p.heads⟩
  · have hlen : p.overloads.length = p.heads.length := (length_map _).symm
    have hfirst := firstAt_append_singleton.mpr (.inr ⟨hnone, hlen⟩)
    refine ⟨hfirst, ?_, rfl, ?_⟩
    · rw [Prototype.heads_add]
      exact hfirst
    · rw [Prototype.heads_add]
      exact prefix_append _ _

/-- A signature whose head fits can be registered. -/
theorem exists_registers (hi : s.InStep) (hplace : s.Places slot name)
    (hp : s.symbols.findFunction? name = some p)
    (hfirst : FirstAt (p.heads ++ [.of returnType parameters]) (.of returnType parameters) index) :
    ∃ s', Registers slot name returnType parameters index s s' := by
  have hmatching : p.matching? (parameters.map (·.ty))
      = p.heads.findIdx? (·.types = (Head.of returnType parameters).types) := by
    rw [Prototype.matching?_eq, Head.types_of]
  rcases firstAt_append_singleton.mp hfirst with ⟨hfind, hget⟩ | ⟨hnone, rfl⟩
  · rw [Prototype.heads, getElem?_map, Option.map_eq_some_iff] at hget
    obtain ⟨o, ho, hhead⟩ := hget
    have hmet := hi.getElem? hplace hp index
    rw [ho] at hmet
    obtain ⟨sig, hsig, rfl⟩ := Option.map_eq_some_iff.mp hmet.symm
    have htypes : sig.parameters.map (·.ty) = parameters.map (·.ty) := by
      have := congrArg Head.types hhead
      rwa [Overload.head, Head.types_of, Head.types_of] at this
    refine ⟨_, .repeated hp (hmatching.trans hfind) ?_⟩
    rw [hsig, Option.getD_some]
    exact (repeats_iff htypes).mpr hhead
  · have hlen : (s.signatures slot).length = p.heads.length := by
      rw [Prototype.heads, length_map, hi.overloads hplace hp, length_map]
    rw [← hlen]
    exact ⟨_, .added hp (hmatching.trans hnone)⟩

end

/-! ## §4. Overloads by name and place -/

/-- The overload of a function at a place. -/
def SymbolTable.overloadAt? (t : SymbolTable) (name : String) (i : Nat) : Option Overload :=
  (t.findFunction? name).bind (·.overloads[i]?)

/-- Is there a complete overload at the place? -/
def SymbolTable.definedAt (t : SymbolTable) (name : String) (i : Nat) : Bool :=
  (t.overloadAt? name i).any (·.isDefined)

/-- The parameters of the overload at a place, none if there is no overload. -/
def SymbolTable.parametersAt (t : SymbolTable) (name : String) (i : Nat) : List Var :=
  ((t.overloadAt? name i).map (·.parameters)).getD []

/-- The body of the overload at a place among those met, empty if there is none. -/
def ReadState.bodyAt (s : ReadState) (slot i : Nat) : List Instruction :=
  ((s.signatures slot)[i]?.map (·.body)).getD []

variable {t u : SymbolTable}

theorem overloadAt?_congr (h : ∀ name, u.findFunction? name = t.findFunction? name) (name : String)
    (i : Nat) : u.overloadAt? name i = t.overloadAt? name i := by
  rw [SymbolTable.overloadAt?, h, SymbolTable.overloadAt?]

theorem definedAt_of_eq (h : u.overloadAt? name i = t.overloadAt? name i) :
    u.definedAt name i = t.definedAt name i := by
  rw [SymbolTable.definedAt, h, SymbolTable.definedAt]

theorem parametersAt_of_eq (h : u.overloadAt? name i = t.overloadAt? name i) :
    u.parametersAt name i = t.parametersAt name i := by
  rw [SymbolTable.parametersAt, h, SymbolTable.parametersAt]

section

variable {slot : Nat} {name : String} {returnType : Ty} {parameters : List Var} {index : Nat}
  {s s' : ReadState}

/-- **The overload that is registered gets the return type and the parameters, and no other one
    changes.** -/
theorem Registers.overloadAt? (h : Registers slot name returnType parameters index s s')
    (hi : s.InStep) (hplace : s.Places slot name) (other : String) (j : Nat) :
    s'.symbols.overloadAt? other j
      = if other = name ∧ j = index
        then some ⟨returnType, parameters, s.symbols.definedAt name index⟩
        else s.symbols.overloadAt? other j := by
  obtain ⟨p, p', hp, hfind, hcases⟩ := h.inversion hi hplace
  unfold SymbolTable.definedAt SymbolTable.overloadAt?
  rw [hfind, hp]
  by_cases hname : other = name
  · subst hname
    rw [if_pos rfl, hp]
    simp only [true_and, Option.bind_some]
    rcases hcases with ⟨⟨-, hget⟩, rfl, -⟩ | ⟨-, rfl, rfl⟩
    · rw [Prototype.heads, getElem?_map, Option.map_eq_some_iff] at hget
      obtain ⟨o, ho, hhead⟩ := hget
      simp only [Prototype.modify, getElem?_modify]
      by_cases hj : j = index
      · subst hj
        have hreturn : o.returnType = returnType := congrArg Head.returnType hhead
        simp [ho, hreturn]
      · simp [hj, Ne.symm hj]
    · simp only [Prototype.add]
      by_cases hj : j = p.overloads.length
      · subst hj
        simp
      · rw [if_neg hj, getElem?_append]
        split
        next => rfl
        next hge =>
          rw [getElem?_eq_none (by simp; omega), getElem?_eq_none (by omega)]
  · rw [if_neg hname, if_neg fun hand => hname hand.1]

theorem Registers.definedAt (h : Registers slot name returnType parameters index s s')
    (hi : s.InStep) (hplace : s.Places slot name) (other : String) (j : Nat) :
    s'.symbols.definedAt other j = s.symbols.definedAt other j := by
  unfold SymbolTable.definedAt
  rw [h.overloadAt? hi hplace]
  split
  next heq =>
    rw [heq.1, heq.2]
    rfl
  next => rfl

theorem Registers.parametersAt (h : Registers slot name returnType parameters index s s')
    (hi : s.InStep) (hplace : s.Places slot name) (other : String) (j : Nat) :
    s'.symbols.parametersAt other j
      = if other = name ∧ j = index then parameters else s.symbols.parametersAt other j := by
  unfold SymbolTable.parametersAt
  rw [h.overloadAt? hi hplace]
  split
  next => rfl
  next => rfl

end

theorem ReadState.bodyAt_onFunction (s : ReadState) (slot : Nat) (name : String)
    (f : Prototype → Prototype) {g : List Signature → List Signature}
    (hg : ∀ (sigs : List Signature) (j : Nat),
      ((g sigs)[j]?.map (·.body)).getD [] = (sigs[j]?.map (·.body)).getD [])
    (slot' j : Nat) : (s.onFunction slot name f g).bodyAt slot' j = s.bodyAt slot' j := by
  simp only [ReadState.bodyAt, ReadState.signatures, ReadState.onFunction, getElem?_modify,
    Option.map_eq_map, Option.map_map]
  cases s.functions[slot']? with
  | none => rfl
  | some k =>
    simp only [Option.map_some, Option.getD_some, Function.comp_apply]
    split
    · exact hg k.signatures j
    · rfl

theorem map_body_modify (sigs : List Signature) (i j : Nat) {f : Signature → Signature}
    (hf : ∀ sig, (f sig).body = sig.body) :
    ((sigs.modify i f)[j]?.map (·.body)).getD [] = (sigs[j]?.map (·.body)).getD [] := by
  rw [getElem?_modify]
  cases sigs[j]? with
  | none => rfl
  | some sig =>
    simp only [Option.map_eq_map, Option.map_some, Option.getD_some]
    split
    · exact hf sig
    · rfl

theorem Registers.bodyAt {returnType : Ty} {parameters : List Var} {index : Nat} {s' : ReadState}
    (h : Registers slot name returnType parameters index s s') (slot' j : Nat) :
    s'.bodyAt slot' j = s.bodyAt slot' j := by
  have hset : ∀ (s : ReadState) (i : Nat),
      (s.setParameters slot name i parameters).bodyAt slot' j = s.bodyAt slot' j := by
    intro s i
    refine s.bodyAt_onFunction slot name _ ?_ slot' j
    exact fun sigs j => map_body_modify sigs i j fun _ => rfl
  cases h with
  | repeated bound known repeats => exact hset _ _
  | added bound unknown =>
    rw [hset]
    refine s.bodyAt_onFunction slot name _ ?_ slot' j
    intro sigs j
    rw [getElem?_append]
    split
    next => rfl
    next hge =>
      rw [getElem?_eq_none (by omega : sigs.length ≤ j), getElem?_singleton]
      split <;> rfl

/-! ## §5. Bodies -/

theorem ReadState.signatures_onFunction_ne {slot' : Nat} (h : slot' ≠ slot)
    {f : Prototype → Prototype} {g : List Signature → List Signature} :
    (s.onFunction slot name f g).signatures slot' = s.signatures slot' := by
  simp only [ReadState.signatures, ReadState.onFunction, getElem?_modify, if_neg (Ne.symm h),
    Option.map_eq_map, Option.map_id']

section

variable {slot : Nat} {name : String} {index : Nat} {body : List Instruction} {s : ReadState}

theorem overloadAt?_complete (other : String) (j : Nat) :
    (s.complete slot name index body).symbols.overloadAt? other j
      = (s.symbols.overloadAt? other j).map fun o =>
        if other = name ∧ j = index then { o with isDefined := true } else o := by
  unfold SymbolTable.overloadAt? ReadState.complete ReadState.onFunction
  rw [SymbolTable.findFunction?_modifyFunction]
  cases s.symbols.findFunction? other with
  | none => split <;> rfl
  | some p =>
    by_cases hname : other = name
    · simp only [hname, if_true, Option.map_some, Option.bind_some, Prototype.modify,
        getElem?_modify, true_and, Option.map_eq_map]
      congr 1
      funext o
      by_cases hj : j = index
      · rw [if_pos hj, if_pos hj.symm]
      · rw [if_neg hj, if_neg (Ne.symm hj)]
    · simp [hname]

theorem definedAt_complete (other : String) (j : Nat) :
    (s.complete slot name index body).symbols.definedAt other j
      = (s.symbols.definedAt other j
        || decide (other = name ∧ j = index ∧ (s.symbols.overloadAt? other j).isSome)) := by
  unfold SymbolTable.definedAt
  rw [overloadAt?_complete]
  cases s.symbols.overloadAt? other j with
  | none => simp
  | some o =>
    by_cases hat : other = name ∧ j = index
    · simp [hat]
    · simp [hat]

theorem parametersAt_complete (other : String) (j : Nat) :
    (s.complete slot name index body).symbols.parametersAt other j
      = s.symbols.parametersAt other j := by
  unfold SymbolTable.parametersAt
  rw [overloadAt?_complete]
  cases s.symbols.overloadAt? other j with
  | none => rfl
  | some o =>
    simp only [Option.map_some, Option.getD_some]
    split <;> rfl

theorem bodyAt_complete (hplace : s.Places slot name) {sig : Signature}
    (hsig : (s.signatures slot)[index]? = some sig) (slot' j : Nat) :
    (s.complete slot name index body).bodyAt slot' j
      = if slot' = slot ∧ j = index then body else s.bodyAt slot' j := by
  unfold ReadState.bodyAt
  by_cases hslot : slot' = slot
  · subst hslot
    rw [ReadState.complete, ReadState.signatures_onFunction hplace, getElem?_modify]
    by_cases hj : j = index
    · subst hj
      simp [hsig]
    · simp [hj, Ne.symm hj]
  · rw [if_neg fun hand => hslot hand.1, ReadState.complete, ReadState.signatures_onFunction_ne hslot]

end

theorem ReadState.InStep.exists_prototype (h : s.InStep) (hplace : s.Places slot name) :
    ∃ p, s.symbols.findFunction? name = some p := by
  obtain ⟨k, hk, rfl, -⟩ := hplace.exists_function
  obtain ⟨p, hp, -⟩ := h.agree k (mem_of_getElem? hk)
  exact ⟨p, hp⟩

theorem ReadState.InStep.isDefined (h : s.InStep) (hplace : s.Places slot name) (i : Nat) :
    s.isDefined slot i = s.symbols.definedAt name i := by
  obtain ⟨p, hp⟩ := h.exists_prototype hplace
  unfold ReadState.isDefined SymbolTable.definedAt SymbolTable.overloadAt?
  rw [hp, Option.bind_some, h.getElem? hplace hp]
  cases (s.signatures slot)[i]? <;> rfl

/-! ## §6. Functions that are met -/

section

variable {s : ReadState}

theorem mem_functionNames_iff :
    name ∈ s.functionNames ↔ (s.functions.findIdx? (·.name == name)).isSome := by
  simp [ReadState.functionNames, findIdx?_isSome]

theorem findFunction?_slot (hi : s.InStep) (cx : Context) (name other : String)
    (hopen : s.symbols.scopes ≠ []) :
    (s.slot cx name).2.symbols.findFunction? other
      = (s.symbols.findFunction? other).or (if other = name then some (.empty name) else none) := by
  unfold ReadState.slot
  split
  next slot hslot =>
    by_cases hname : other = name
    · -- what was met is bound
      have hmet : name ∈ s.functionNames := mem_functionNames_iff.mpr (by rw [hslot]; rfl)
      obtain ⟨f, hf, rfl⟩ := mem_map.mp hmet
      obtain ⟨p, hp, -⟩ := hi.agree f hf
      rw [hname, hp]
      rfl
    · rw [if_neg hname, Option.or_none]
  next =>
    split
    next p hp =>
      by_cases hname : other = name
      · show s.symbols.findFunction? other = _
        rw [hname, hp]
        rfl
      · rw [if_neg hname, Option.or_none]
    next hnone =>
      show (s.symbols.addFunctionAt cx.globalDepth (.empty name)).2.findFunction? other = _
      rw [SymbolTable.findFunction?_addFunctionAt _ hopen hnone,
        show (Prototype.empty name).name = name from rfl]
      by_cases hname : other = name
      · rw [if_pos hname, if_pos hname, hname, hnone]
        rfl
      · rw [if_neg hname, if_neg hname, Option.or_none]

theorem overloadAt?_slot (hi : s.InStep) (cx : Context) (name : String)
    (hopen : s.symbols.scopes ≠ []) (other : String) (j : Nat) :
    (s.slot cx name).2.symbols.overloadAt? other j = s.symbols.overloadAt? other j := by
  unfold SymbolTable.overloadAt?
  rw [findFunction?_slot hi cx name other hopen]
  cases s.symbols.findFunction? other with
  | some p => rfl
  | none => split <;> rfl

theorem functions_slot (s : ReadState) (cx : Context) (name : String) :
    (s.slot cx name).2.functions = s.functions
      ∨ ∃ sigs : List Signature, (∀ sig ∈ sigs, sig.body = [])
        ∧ (s.slot cx name).2.functions = s.functions ++ [⟨name, sigs⟩] := by
  unfold ReadState.slot
  split
  next => exact .inl rfl
  next =>
    split
    next p hp =>
      refine .inr ⟨_, ?_, rfl⟩
      intro sig hsig
      obtain ⟨o, -, rfl⟩ := mem_map.mp hsig
      rfl
    next => exact .inr ⟨[], nofun, rfl⟩

theorem bodyAt_slot (cx : Context) (name : String) (slot j : Nat) :
    (s.slot cx name).2.bodyAt slot j = s.bodyAt slot j := by
  unfold ReadState.bodyAt ReadState.signatures
  rcases functions_slot s cx name with heq | ⟨sigs, hempty, heq⟩
  · rw [heq]
  · rw [heq, getElem?_append]
    split
    next => rfl
    next hge =>
      rw [getElem?_eq_none (by omega : s.functions.length ≤ slot), getElem?_singleton]
      split
      next =>
        cases hsig : sigs[j]? with
        | none => simp [hsig]
        | some sig => simp [hsig, hempty sig (mem_of_getElem? hsig)]
      next => rfl

theorem slot_eq (s : ReadState) (cx : Context) (name : String) :
    (s.slot cx name).1 = s.functionNames.idxOf name
      ∧ (s.slot cx name).2.functionNames
        = if name ∈ s.functionNames then s.functionNames else s.functionNames ++ [name] := by
  have hidx : s.functions.findIdx? (·.name == name)
      = s.functionNames.findIdx? (· == name) := by
    rw [ReadState.functionNames, findIdx?_map]
    rfl
  unfold ReadState.slot
  split
  next slot hslot =>
    have hmet : name ∈ s.functionNames := mem_functionNames_iff.mpr (by rw [hslot]; rfl)
    rw [hidx] at hslot
    refine ⟨?_, (if_pos hmet).symm⟩
    rw [List.idxOf, ← findIdx?_eq_some_iff_findIdx_eq.mp hslot |>.2]
  next hnone =>
    have hfresh : name ∉ s.functionNames := by
      rw [mem_functionNames_iff, hnone]
      exact Bool.false_ne_true
    have hlast : s.functions.length = s.functionNames.idxOf name := by
      rw [idxOf_eq_length hfresh, ReadState.functionNames, length_map]
    split
    next => exact ⟨hlast, by rw [if_neg hfresh]; simp [ReadState.functionNames]⟩
    next => exact ⟨hlast, by rw [if_neg hfresh]; simp [ReadState.functionNames]⟩

theorem storage_slot (s : ReadState) (cx : Context) (name : String) :
    (s.slot cx name).2.storage = s.storage := by
  unfold ReadState.slot
  split
  · rfl
  · split <;> rfl

end

/-! ## §7. Heads only grow -/

/-- Every function that is bound stays bound, with its heads and more behind them. -/
def SymbolTable.Leads (t u : SymbolTable) : Prop :=
  ∀ name p, t.findFunction? name = some p → ∃ q, u.findFunction? name = some q ∧ p.Leads q

namespace SymbolTable.Leads

theorem of_eq (h : ∀ name, u.findFunction? name = t.findFunction? name) : t.Leads u := by
  intro name p hp
  exact ⟨p, by rw [h, hp], .refl p⟩

theorem trans {w : SymbolTable} (h1 : t.Leads u) (h2 : u.Leads w) : t.Leads w := by
  intro name p hp
  obtain ⟨q, hq, hpq⟩ := h1 name p hp
  obtain ⟨r, hr, hqr⟩ := h2 name q hq
  exact ⟨r, hr, hpq.trans hqr⟩

theorem grows (h : t.Leads u) : t.Grows u := by
  intro name p hp
  obtain ⟨q, hq, hpq⟩ := h name p hp
  exact ⟨q, hq, hpq.grows⟩

end SymbolTable.Leads

/-- Heads are only added behind. -/
theorem leads_frame (d : Nat) :
    Frame d fun s s' => s.Rooted d → s.InStep → Evolves d s s' ∧ s.symbols.Leads s'.symbols where
  refl := fun s hr hi => ⟨(evolves_frame d).refl s hr hi, .of_eq fun _ => rfl⟩
  trans := by
    intro s1 s2 s3 h1 h2 hr hi
    obtain ⟨e1, l1⟩ := h1 hr hi
    obtain ⟨e2, l2⟩ := h2 e1.rooted e1.inStep
    exact ⟨(evolves_frame d).trans _ _ _ (fun _ _ => e1) (fun _ _ => e2) hr hi, l1.trans l2⟩
  takeLoop := fun s hr hi => ⟨(evolves_frame d).takeLoop s hr hi, .of_eq fun _ => rfl⟩
  declare := fun s v hopen hr hi => ⟨(evolves_frame d).declare s v hopen hr hi,
    .of_eq (findFunction?_congr (functionScopes_declare hopen v))⟩
  slot := by
    intro s cx name hd hopen hr hi
    refine ⟨(evolves_frame d).slot s cx name hd hopen hr hi, ?_⟩
    intro other p hp
    refine ⟨p, ?_, .refl p⟩
    rw [findFunction?_slot hi cx name other hopen, hp]
    rfl
  registers := by
    intro slot name returnType parameters index s s' hplace hmade hreg hr hi
    refine ⟨(evolves_frame d).registers _ _ _ _ _ _ _ hplace hmade hreg hr hi, ?_⟩
    intro other p hp
    obtain ⟨q, q', hq, hq', -, -, hleads⟩ := hreg.first hi hplace
    obtain ⟨_, _, _, hfind, _⟩ := hreg.inversion hi hplace
    by_cases hname : other = name
    · subst hname
      obtain rfl : q = p := Option.some.inj (hq.symm.trans hp)
      exact ⟨q', hq', hleads⟩
    · exact ⟨p, by rw [hfind, if_neg hname, hp], .refl p⟩
  complete := by
    intro s slot name index body hplace hbound hr hi
    refine ⟨(evolves_frame d).complete _ _ _ _ _ hplace hbound hr hi, ?_⟩
    intro other p hp
    rw [ReadState.complete, ReadState.onFunction, SymbolTable.findFunction?_modifyFunction]
    by_cases hname : other = name
    · rw [if_pos hname, hp]
      exact ⟨_, rfl, rfl, (p.heads_completed index).symm ▸ prefix_refl p.heads⟩
    · exact ⟨p, by rw [if_neg hname, hp], .refl p⟩
  scope := by
    intro s s' hopen h hr hi
    obtain ⟨e, l⟩ := h hr.opened ⟨hi.nodup, hi.agree⟩
    refine ⟨(evolves_frame d).scope _ _ hopen (fun _ _ => e) hr hi, ?_⟩
    exact l.trans (.of_eq (e.rooted.findFunction?_closed e.length hr))

theorem Reads.leads {cx : Context} {reading : Reading} {s' : ReadState} (h : Reads cx reading s s')
    (hplaced : reading.Placed s) (hr : s.Rooted cx.globalDepth) (hi : s.InStep) :
    Evolves cx.globalDepth s s' ∧ s.symbols.Leads s'.symbols :=
  (leads_frame cx.globalDepth).reads h rfl hplaced hr hi

end Shading
