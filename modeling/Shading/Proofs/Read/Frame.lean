/-
  Shading.Proofs.Read.Frame — what all of reading keeps.

  A `Frame` is a relation between states that every single step of reading keeps.  It is kept by all
  of reading (`Frame.reads`), so an invariant is proved step by step and never by another induction
  over derivations.
-/
import Shading.Proofs.Read.Derivation
import Shading.Proofs.Read.Value

namespace Shading

open List

variable {nodes : List Node} {vs : List Var}

/-! ## §1. Open scopes -/

variable {env : Env} {node : Node} {ty : Ty}

/-- Reading a type finds a name, so a scope is open. -/
theorem exists_type_of_readType (h : readType env node = .ok ty) :
    ∃ name t, env.symbols.findType? name = some t := by
  induction node using readType.induct generalizing ty with
  | case1 name =>
    rw [readType, Env.require_eq_ok] at h
    exact ⟨name, ty, h⟩
  | case2 element length ih =>
    simp only [readType, except_bind_eq_ok] at h
    obtain ⟨t, ht, -⟩ := h
    exact ih ht
  | case3 node h1 h2 =>
    rw [readType] at h
    · exact absurd h Env.fail_ne_ok
    all_goals assumption

variable {cx : Context} {s : ReadState}

theorem scopes_ne_nil_of_readType (h : readType (s.env cx) node = .ok ty) :
    s.symbols.scopes ≠ [] := by
  obtain ⟨name, t, ht⟩ := exists_type_of_readType h
  intro hnil
  simp [ReadState.env, SymbolTable.findType?, hnil] at ht

theorem findType?_slot (s : ReadState) (cx : Context) (name other : String) :
    (s.slot cx name).2.symbols.findType? other = s.symbols.findType? other := by
  unfold ReadState.slot
  split
  · rfl
  · split
    · rfl
    · exact s.symbols.findType?_addFunctionAt cx.globalDepth (.empty name) other

variable {s' : ReadState} {name : String} {slot : Nat}

theorem scopes_ne_nil_of_overloads {scan : Bool} {first : Node} {rest : List Node}
    {entries : List Entry}
    (h : Reads cx (.signatures scan slot name (first :: rest) entries) (s.slot cx name).2 s') :
    s.symbols.scopes ≠ [] := by
  obtain ⟨ty, returnType, htype⟩ :
      ∃ ty returnType, readType ((s.slot cx name).2.env cx) ty = .ok returnType := by
    cases h with
    | more head others =>
      cases head with
      | prototype type => exact ⟨_, _, type⟩
      | definition type => exact ⟨_, _, type⟩
  obtain ⟨other, t, ht⟩ := exists_type_of_readType htype
  rw [ReadState.env, findType?_slot] at ht
  intro hnil
  simp [SymbolTable.findType?, hnil] at ht

/-! ## §2. Places of functions -/

/-- The function at that place has that name. -/
def ReadState.Places (s : ReadState) (slot : Nat) (name : String) : Prop :=
  s.functions[slot]?.map (·.name) = some name

/-- A slot holds the function it was asked for. -/
theorem places_slot (s : ReadState) (cx : Context) (name : String) :
    (s.slot cx name).2.Places (s.slot cx name).1 name := by
  unfold ReadState.slot ReadState.Places
  split
  next slot hslot =>
    obtain ⟨hlt, hname, -⟩ := findIdx?_eq_some_iff_getElem.mp hslot
    simpa [getElem?_eq_getElem hlt] using hname
  next => split <;> simp

theorem places_of_slot {s1 : ReadState} (place : s.slot cx name = (slot, s1)) : s1.Places slot name := by
  have hplace := places_slot s cx name
  rw [place] at hplace
  exact hplace

/-- What a state has of functions, by name. -/
def ReadState.functionNames (s : ReadState) : List String := s.functions.map (·.name)

@[simp] theorem functionNames_onFunction (s : ReadState) (slot : Nat) (name : String)
    (f : Prototype → Prototype) (g : List Signature → List Signature) :
    (s.onFunction slot name f g).functionNames = s.functionNames := by
  apply ext_getElem?
  intro i
  simp only [ReadState.functionNames, ReadState.onFunction, getElem?_map,
    getElem?_modify]
  split
  · cases s.functions[i]? <;> rfl
  · cases s.functions[i]? <;> rfl

theorem functionNames_slot (s : ReadState) (cx : Context) (name : String) :
    s.functionNames <+: (s.slot cx name).2.functionNames := by
  unfold ReadState.slot ReadState.functionNames
  split
  · exact prefix_refl _
  · split <;> simp

theorem functionNames_registers {returnType : Ty} {parameters : List Var} {index : Nat}
    (h : Registers slot name returnType parameters index s s') :
    s'.functionNames = s.functionNames := by
  cases h with
  | repeated => simp [ReadState.setParameters]
  | added => simp [ReadState.setParameters, ReadState.addOverload]

theorem functions_declares (h : Declares cx nodes vs s s') :
    s'.functions = s.functions := by
  induction h with
  | nil s => rfl
  | cons first others ih => rw [ih]; rfl

theorem made_of_declares (h : Declares cx nodes vs s s') :
    s.storage.vars.issued ≤ s'.storage.vars.issued ∧ ∀ v ∈ vs, v.id < s'.storage.vars.issued := by
  induction h with
  | nil s => exact ⟨Nat.le_refl _, nofun⟩
  | cons first others ih =>
    exact ⟨Nat.le_trans (Nat.le_succ _) ih.1, forall_mem_cons.mpr ⟨ih.1, ih.2⟩⟩

variable {reading : Reading}

/-- Reading adds functions only at the end. -/
theorem Reads.functionNames_prefix (h : Reads cx reading s s') :
    s.functionNames <+: s'.functionNames := by
  induction h with
  | jump | declare | assign | ret | rvalue | nil | noMore => exact prefix_refl _
  | function inner ih => exact ih
  | branch value first second ih1 ih2 => exact ih1.trans ih2
  | loop header inner ih => exact ih
  | cons first others ih1 ih2 => exact ih1.trans ih2
  | @overloads cx s _ _ _ name _ _ _ _ place inner ih =>
    have hslot := functionNames_slot s cx name
    rw [place] at hslot
    exact hslot.trans ih
  | more first others ih1 ih2 => exact ih1.trans ih2
  | @prototype _ s s1 s2 _ _ _ _ _ _ _ _ _ type declares registers silent =>
    have hnames : s2.functionNames = s.functionNames := by
      rw [functionNames_registers registers, ReadState.functionNames, functions_declares declares]
      rfl
    exact hnames ▸ prefix_refl _
  | @definition _ s s1 s2 s3 slot name _ _ _ _ _ index body type declares registers nonempty
      undefined inner bound ih =>
    have hnames : s2.functionNames = s.functionNames := by
      rw [functionNames_registers registers, ReadState.functionNames, functions_declares declares]
      rfl
    have hcomplete : (s3.complete slot name index body).closed.functionNames
        = s3.functionNames := by
      show (s3.complete slot name index body).functionNames = _
      simp [ReadState.complete]
    rw [hcomplete, ← hnames]
    exact ih

theorem ReadState.Places.of_prefix (h : s.Places slot name)
    (hs : s.functionNames <+: s'.functionNames) : s'.Places slot name := by
  unfold ReadState.Places at h ⊢
  rw [← getElem?_map] at h ⊢
  obtain ⟨rest, hrest⟩ := hs
  obtain ⟨hlt, -⟩ := List.getElem?_eq_some_iff.mp h
  unfold ReadState.functionNames at hrest
  rw [← hrest, getElem?_append_left hlt]
  exact h

/-- Where a part of a function is read, the function has its place. -/
def Reading.Placed (s : ReadState) : Reading → Prop
  | .signatures _ slot name _ _ => s.Places slot name
  | .signature _ slot name _ _ => s.Places slot name
  | _ => True

/-! ## §3. What all of reading keeps -/

/-- A relation between states that every step of reading keeps.  Steps that bind something happen
    only where a scope is open, and an overload is changed only at its function's place. -/
structure Frame (globalDepth : Nat) (R : ReadState → ReadState → Prop) : Prop where
  refl : ∀ s, R s s
  trans : ∀ s1 s2 s3, R s1 s2 → R s2 s3 → R s1 s3
  takeLoop : ∀ s, R s s.takeLoop
  declare : ∀ s v, s.symbols.scopes ≠ [] → R s (s.declare v)
  slot : ∀ s cx name, cx.globalDepth = globalDepth → s.symbols.scopes ≠ [] →
    R s (s.slot cx name).2
  registers : ∀ slot name returnType parameters index s s', s.Places slot name →
    (∀ v ∈ parameters, v.id < s.storage.vars.issued) →
    Registers slot name returnType parameters index s s' → R s s'
  complete : ∀ s slot name index body, s.Places slot name →
    (s.symbols.findFunction? name).isSome → R s (s.complete slot name index body)
  scope : ∀ s s', s.symbols.scopes ≠ [] → R s.opened s' → R s s'.closed

namespace Frame

variable {d : Nat} {R : ReadState → ReadState → Prop}

theorem declares (hR : Frame d R)
    (h : Declares cx nodes vs s s') : R s s' := by
  induction h with
  | nil s => exact hR.refl s
  | cons first others ih =>
    obtain ⟨-, ty, -, t, -, ht, -⟩ := readVariable_eq_ok.mp first
    exact hR.trans _ _ _ (hR.declare _ _ (scopes_ne_nil_of_readType ht)) ih

/-- The head of a signature is one step of the frame. -/
theorem header (hR : Frame d R) {declarations : List Node} {parameters : List Var} {returnType : Ty}
    {index : Nat} {s1 s2 : ReadState} (hplace : s.Places slot name)
    (hdecl : Declares cx declarations parameters s s1)
    (hreg : Registers slot name returnType parameters index s1 s2) :
    R s s2 ∧ s2.Places slot name := by
  have hplace1 : s1.Places slot name := by
    unfold ReadState.Places
    rw [functions_declares hdecl]
    exact hplace
  have hnames := functionNames_registers hreg
  refine ⟨hR.trans _ _ _ (hR.declares hdecl)
    (hR.registers _ _ _ _ _ _ _ hplace1 (made_of_declares hdecl).2 hreg), ?_⟩
  exact hplace1.of_prefix (hnames ▸ prefix_refl _)

/-- **What every step preserves the whole reading preserves**, by induction over its derivation. -/
theorem reads (hR : Frame d R) (h : Reads cx reading s s') (hd : cx.globalDepth = d)
    (hplaced : reading.Placed s) : R s s' := by
  induction h with
  | jump | assign | ret | rvalue | nil | noMore => exact hR.refl _
  | declare declaration =>
    obtain ⟨-, ty, -, t, -, ht, -⟩ := readVariable_eq_ok.mp declaration
    exact hR.declare _ _ (scopes_ne_nil_of_readType ht)
  | function inner ih => exact ih hd trivial
  | branch value first second ih1 ih2 => exact hR.trans _ _ _ (ih1 hd trivial) (ih2 hd trivial)
  | loop header inner ih => exact hR.trans _ _ _ (hR.takeLoop _) (ih hd trivial)
  | cons first others ih1 ih2 => exact hR.trans _ _ _ (ih1 hd trivial) (ih2 hd trivial)
  | @overloads cx s s1 _ _ name _ _ slot _ place inner ih =>
    obtain ⟨rfl, rfl⟩ := Prod.mk.inj place
    have hopen := scopes_ne_nil_of_overloads inner
    exact hR.trans _ _ _ (hR.slot s cx name hd hopen) (ih hd (places_slot s cx name))
  | more first others ih1 ih2 =>
    have hplace := ReadState.Places.of_prefix hplaced first.functionNames_prefix
    exact hR.trans _ _ _ (ih1 hd hplaced) (ih2 hd hplace)
  | @prototype _ s _ _ _ _ _ _ _ _ _ _ _ type declares registers silent =>
    have hopened : s.opened.Places _ _ := hplaced
    exact hR.scope _ _ (scopes_ne_nil_of_readType type) (hR.header hopened declares registers).1
  | @definition _ s _ _ _ _ _ _ _ _ _ _ _ _ type declares registers nonempty undefined inner bound
      ih =>
    have hopened : s.opened.Places _ _ := hplaced
    obtain ⟨hheader, hplace⟩ := hR.header hopened declares registers
    have hbody := hR.trans _ _ _ hheader (ih hd trivial)
    refine hR.scope _ _ (scopes_ne_nil_of_readType type) (hR.trans _ _ _ hbody ?_)
    exact hR.complete _ _ _ _ _ (hplace.of_prefix inner.functionNames_prefix) bound

theorem and {S : ReadState → ReadState → Prop} (hR : Frame d R) (hS : Frame d S) :
    Frame d fun s s' => R s s' ∧ S s s' where
  refl := fun s => ⟨hR.refl s, hS.refl s⟩
  trans := fun s1 s2 s3 h1 h2 => ⟨hR.trans s1 s2 s3 h1.1 h2.1, hS.trans s1 s2 s3 h1.2 h2.2⟩
  takeLoop := fun s => ⟨hR.takeLoop s, hS.takeLoop s⟩
  declare := fun s v hopen => ⟨hR.declare s v hopen, hS.declare s v hopen⟩
  slot := fun s cx name hd hopen => ⟨hR.slot s cx name hd hopen, hS.slot s cx name hd hopen⟩
  registers := fun slot name returnType parameters index s s' hplace hmade h =>
    ⟨hR.registers slot name returnType parameters index s s' hplace hmade h,
      hS.registers slot name returnType parameters index s s' hplace hmade h⟩
  complete := fun s slot name index body hplace hbound =>
    ⟨hR.complete s slot name index body hplace hbound,
      hS.complete s slot name index body hplace hbound⟩
  scope := fun s s' hopen h => ⟨hR.scope s s' hopen h.1, hS.scope s s' hopen h.2⟩

end Frame

/-! ## §4. Types -/

theorem typeScopes_slot (s : ReadState) (cx : Context) (name : String)
    (hopen : s.symbols.scopes ≠ []) :
    (s.slot cx name).2.symbols.typeScopes = s.symbols.typeScopes := by
  unfold ReadState.slot
  split
  · rfl
  · split
    · rfl
    · show (s.symbols.addFunctionAt _ _).2.typeScopes = _
      rw [SymbolTable.typeScopes_addFunctionAt, s.symbols.opened_of_ne_nil hopen]

/-- No step of reading binds types. -/
theorem typeScopes_frame (d : Nat) :
    Frame d fun s s' => s'.symbols.typeScopes = s.symbols.typeScopes where
  refl := fun _ => rfl
  trans := fun _ _ _ h1 h2 => h2.trans h1
  takeLoop := fun _ => rfl
  declare := fun s v hopen => s.symbols.typeScopes_addVariable _ hopen
  slot := fun s cx name _ hopen => typeScopes_slot s cx name hopen
  registers := by
    intro slot name returnType parameters index s s' _ _ h
    cases h with
    | repeated => simp [ReadState.setParameters, ReadState.onFunction]
    | added => simp [ReadState.setParameters, ReadState.addOverload, ReadState.onFunction]
  complete := by
    intro s slot name index body _ _
    simp [ReadState.complete, ReadState.onFunction]
  scope := by
    intro s s' _ h
    show s'.symbols.pop.typeScopes = _
    rw [SymbolTable.typeScopes_pop, h]
    rfl

theorem Reads.typeScopes (h : Reads cx reading s s') (hplaced : reading.Placed s) :
    s'.symbols.typeScopes = s.symbols.typeScopes :=
  (typeScopes_frame cx.globalDepth).reads h rfl hplaced

theorem readType_congr {env env' : Env}
    (h : ∀ name, env'.symbols.findType? name = env.symbols.findType? name) {node : Node} {ty : Ty}
    (hty : readType env node = .ok ty) : readType env' node = .ok ty :=
  Env.SharesTypes.readType (Q := fun _ => True) ⟨fun _ _ _ => trivial, fun _ => h _⟩ trivial hty

theorem findType?_congr {t u : SymbolTable} (h : u.typeScopes = t.typeScopes) (name : String) :
    u.findType? name = t.findType? name := by
  rw [SymbolTable.findType?_eq, h, ← SymbolTable.findType?_eq]

theorem readVariable_congr {env' : Env} (h : env'.symbols.typeScopes = env.symbols.typeScopes)
    {v : Variable} (hv : readVariable env node = .ok v) : readVariable env' node = .ok v := by
  obtain ⟨qualifiers, ty, name, t, rfl, ht, hq⟩ := readVariable_eq_ok.mp hv
  exact readVariable_eq_ok.mpr ⟨_, _, _, _, rfl, readType_congr (findType?_congr h) ht, hq⟩

theorem typeScopes_declare {v : Variable} (h : readVariable (s.env cx) node = .ok v) :
    (s.declare v).symbols.typeScopes = s.symbols.typeScopes := by
  obtain ⟨-, ty, -, t, -, ht, -⟩ := readVariable_eq_ok.mp h
  exact s.symbols.typeScopes_addVariable _ (scopes_ne_nil_of_readType ht)

end Shading
