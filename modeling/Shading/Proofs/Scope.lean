/-
  Shading.Proofs.Scope — what a symbol table finds after it was changed.

  One lemma for each change and each kind of name: opening and closing scopes, binding a variable,
  binding a function at a depth, changing what a function's name stands for.
-/
import Shading.Scope

namespace Shading

open List

/-! ## §1. Bindings -/

namespace Bindings

variable {α : Type}

@[simp] theorem find?_nil (name : String) : find? ([] : Bindings α) name = none := rfl

/-- A name that is bound hides what it stood for and no other name. -/
theorem find?_bind (b : Bindings α) (name other : String) (value : α) :
    (b.bind name value).find? other = if other = name then some value else b.find? other := by
  unfold find? bind
  by_cases h : other = name
  · simp [h]
  · have hne : (other == name) = false := by simpa using h
    simp [lookup_cons, hne, h]

/-- A name that is modified stands for the new value, if it stood for one. -/
theorem find?_modify (b : Bindings α) (name other : String) (f : α → α) :
    (b.modify name f).find? other
      = if other = name then (b.find? other).map f else b.find? other := by
  unfold find? modify
  induction b with
  | nil => simp
  | cons entry rest ih =>
    obtain ⟨n, value⟩ := entry
    by_cases hn : n = name
    · subst hn
      by_cases ho : other = n
      · simp [ho]
      · have hne : (other == n) = false := by simpa using ho
        simpa [lookup_cons, hne, ho] using ih
    · by_cases ho : other = n
      · simp [hn, ho]
      · have hne : (other == n) = false := by simpa using ho
        simpa [lookup_cons, hn, hne] using ih

theorem mem_of_find? {b : Bindings α} {name : String} {value : α} (h : b.find? name = some value) :
    (name, value) ∈ b := by
  induction b with
  | nil => cases h
  | cons entry rest ih =>
    obtain ⟨n, v⟩ := entry
    unfold find? at h ih
    by_cases hn : name = n
    · subst hn
      simp only [lookup_cons, beq_self_eq_true, Option.some.injEq] at h
      simp [h]
    · have hne : (name == n) = false := by simpa using hn
      rw [lookup_cons, hne] at h
      exact mem_cons_of_mem _ (ih h)

end Bindings

/-! ## §2. The three kinds of names -/

namespace SymbolTable

/-- The types that the scopes bind, innermost first. -/
def typeScopes (t : SymbolTable) : List (Bindings Ty) := t.scopes.map (·.types)

/-- The variables that the scopes bind, innermost first. -/
def varScopes (t : SymbolTable) : List (Bindings Var) := t.scopes.map (·.vars)

/-- The functions that the scopes bind, innermost first. -/
def functionScopes (t : SymbolTable) : List (Bindings Prototype) := t.scopes.map (·.functions)

/-- A name is looked up scope by scope, from the innermost one on. -/
theorem findType?_eq (t : SymbolTable) (name : String) :
    t.findType? name = t.typeScopes.findSome? (·.find? name) := by
  simp [findType?, typeScopes, findSome?_map, Function.comp_def]

theorem findVariable?_eq (t : SymbolTable) (name : String) :
    t.findVariable? name = t.varScopes.findSome? (·.find? name) := by
  simp [findVariable?, varScopes, findSome?_map, Function.comp_def]

theorem findFunction?_eq (t : SymbolTable) (name : String) :
    t.findFunction? name = t.functionScopes.findSome? (·.find? name) := by
  simp [findFunction?, functionScopes, findSome?_map, Function.comp_def]

section

variable (t : SymbolTable)

@[simp] theorem typeScopes_push : t.push.typeScopes = [] :: t.typeScopes := rfl

@[simp] theorem varScopes_push : t.push.varScopes = [] :: t.varScopes := rfl

@[simp] theorem functionScopes_push : t.push.functionScopes = [] :: t.functionScopes := rfl

@[simp] theorem typeScopes_pop : t.pop.typeScopes = t.typeScopes.tail := by
  simp [typeScopes, pop]

@[simp] theorem varScopes_pop : t.pop.varScopes = t.varScopes.tail := by
  simp [varScopes, pop]

@[simp] theorem functionScopes_pop : t.pop.functionScopes = t.functionScopes.tail := by
  simp [functionScopes, pop]

/-! ## §3. Binding a variable -/

theorem typeScopes_addVariable (v : Var) (h : t.scopes ≠ []) :
    (t.addVariable v).2.typeScopes = t.typeScopes := by
  unfold addVariable onInnermost
  split
  next hnil => exact absurd hnil h
  next scope outer hscopes => simp [typeScopes, hscopes]

/-- A variable is bound in the innermost scope. -/
theorem varScopes_addVariable (v : Var) (h : t.scopes ≠ []) :
    (t.addVariable v).2.varScopes = t.varScopes.modifyHead (·.bind v.name v) := by
  unfold addVariable onInnermost
  split
  next hnil => exact absurd hnil h
  next scope outer hscopes => simp [varScopes, hscopes]

theorem length_scopes_addVariable (v : Var) (h : t.scopes ≠ []) :
    (t.addVariable v).2.scopes.length = t.scopes.length := by
  have h' := congrArg List.length (t.typeScopes_addVariable v h)
  simpa [typeScopes] using h'

theorem functionScopes_addVariable (v : Var) (h : t.scopes ≠ []) :
    (t.addVariable v).2.functionScopes = t.functionScopes := by
  unfold addVariable onInnermost
  split
  next hnil => exact absurd hnil h
  next scope outer hscopes => simp [functionScopes, hscopes]

/-! ## §4. Binding a function -/

end

theorem map_types_bindOutside (p : Prototype) (n : Nat) (scopes : List Scope) :
    (bindOutside p n scopes).2.map (·.types) = scopes.map (·.types) := by
  induction scopes generalizing n with
  | nil => cases n <;> rfl
  | cons scope outer ih =>
    cases n with
    | zero => rfl
    | succ n => simp [bindOutside, ih]

theorem map_vars_bindOutside (p : Prototype) (n : Nat) (scopes : List Scope) :
    (bindOutside p n scopes).2.map (·.vars) = scopes.map (·.vars) := by
  induction scopes generalizing n with
  | nil => cases n <;> rfl
  | cons scope outer ih =>
    cases n with
    | zero => rfl
    | succ n => simp [bindOutside, ih]

theorem map_functions_bindOutside (p : Prototype) (n : Nat) (scopes : List Scope) :
    (bindOutside p n scopes).2.map (·.functions)
      = (scopes.map (·.functions)).modify n (fun b => (b.bindNew p.name p).2) := by
  induction scopes generalizing n with
  | nil => cases n <;> simp [bindOutside]
  | cons scope outer ih =>
    cases n with
    | zero => simp [bindOutside, bindFunction]
    | succ n => simp [bindOutside, ih]

section

variable (t : SymbolTable)

/-- A table with a scope is not opened any further. -/
theorem opened_of_ne_nil (h : t.scopes ≠ []) : t.opened = t := by
  unfold opened
  split
  next hnil => exact absurd hnil h
  next => rfl

theorem typeScopes_addFunctionAt (depth : Nat) (p : Prototype) :
    (t.addFunctionAt depth p).2.typeScopes = t.opened.typeScopes := by
  simp [addFunctionAt, typeScopes, map_types_bindOutside]

theorem varScopes_addFunctionAt (depth : Nat) (p : Prototype) :
    (t.addFunctionAt depth p).2.varScopes = t.opened.varScopes := by
  simp [addFunctionAt, varScopes, map_vars_bindOutside]

theorem length_scopes_addFunctionAt (depth : Nat) (p : Prototype) :
    (t.addFunctionAt depth p).2.scopes.length = t.opened.scopes.length := by
  have h := congrArg List.length (t.typeScopes_addFunctionAt depth p)
  simpa [typeScopes] using h

/-- A prototype is bound in the scope of its depth, counted from the outermost. -/
theorem functionScopes_addFunctionAt (depth : Nat) (p : Prototype) :
    (t.addFunctionAt depth p).2.functionScopes
      = t.opened.functionScopes.modify
          (t.opened.scopes.length - max 1 (min depth t.opened.scopes.length))
          (fun b => (b.bindNew p.name p).2) := by
  simp [addFunctionAt, functionScopes, map_functions_bindOutside]

/-- A name that is new everywhere is found in whichever scope it is bound. -/
theorem findSome?_modify_bindNew {bs : List (Bindings Prototype)} {name : String} {p : Prototype}
    {n : Nat} (hn : n < bs.length) (hnone : ∀ b ∈ bs, b.find? name = Option.none) (other : String) :
    (bs.modify n fun b => (b.bindNew name p).2).findSome? (·.find? other)
      = if other = name then some p else bs.findSome? (·.find? other) := by
  induction bs generalizing n with
  | nil => simp at hn
  | cons b bs ih =>
    have hb := hnone b mem_cons_self
    cases n with
    | zero =>
      simp only [modify_zero_cons, findSome?_cons, Bindings.bindNew, hb,
        Bindings.find?_bind]
      by_cases ho : other = name
      · simp [ho]
      · simp [ho]
    | succ n =>
      have htail := ih (Nat.lt_of_succ_lt_succ hn)
        (fun b' hb' => hnone b' (mem_cons_of_mem _ hb'))
      simp only [modify_succ_cons, findSome?_cons, htail]
      by_cases ho : other = name
      · simp [ho, hb]
      · simp [ho]

/-- A new prototype is found under its name, and every other name as before. -/
theorem findFunction?_addFunctionAt {depth : Nat} {p : Prototype} (h : t.scopes ≠ [])
    (hnone : t.findFunction? p.name = Option.none) (other : String) :
    (t.addFunctionAt depth p).2.findFunction? other
      = if other = p.name then some p else t.findFunction? other := by
  have hlen : t.functionScopes.length = t.scopes.length := by simp [functionScopes]
  have hpos : 0 < t.scopes.length := length_pos_iff.mpr h
  rw [findFunction?_eq] at hnone
  rw [findFunction?_eq, findFunction?_eq, functionScopes_addFunctionAt, t.opened_of_ne_nil h]
  refine findSome?_modify_bindNew (by omega) ?_ other
  exact findSome?_eq_none_iff.mp hnone

theorem findType?_addFunctionAt (depth : Nat) (p : Prototype) (name : String) :
    (t.addFunctionAt depth p).2.findType? name = t.findType? name := by
  rw [findType?_eq, findType?_eq, typeScopes_addFunctionAt]
  unfold opened
  split
  next hnil => simp [typeScopes, hnil, empty]
  next => rfl

end

/-! ## §5. Changing a function -/

theorem map_types_modifyIn (name : String) (f : Prototype → Prototype) (scopes : List Scope) :
    (modifyIn name f scopes).map (·.types) = scopes.map (·.types) := by
  induction scopes with
  | nil => rfl
  | cons scope outer ih =>
    unfold modifyIn
    split
    · rfl
    · simp [ih]

theorem map_vars_modifyIn (name : String) (f : Prototype → Prototype) (scopes : List Scope) :
    (modifyIn name f scopes).map (·.vars) = scopes.map (·.vars) := by
  induction scopes with
  | nil => rfl
  | cons scope outer ih =>
    unfold modifyIn
    split
    · rfl
    · simp [ih]

/-- The innermost prototype of a name is modified, which is the one that is found. -/
theorem findSome?_modifyIn (name other : String) (f : Prototype → Prototype) (scopes : List Scope) :
    (modifyIn name f scopes).findSome? (fun scope => scope.functions.find? other)
      = if other = name then (scopes.findSome? fun scope => scope.functions.find? other).map f
        else scopes.findSome? fun scope => scope.functions.find? other := by
  induction scopes with
  | nil => simp [modifyIn]
  | cons scope outer ih =>
    unfold modifyIn
    split
    next hs =>
      by_cases ho : other = name
      · subst ho
        obtain ⟨p, hp⟩ := Option.isSome_iff_exists.mp hs
        simp [Bindings.find?_modify, hp]
      · simp [findSome?_cons, Bindings.find?_modify, ho]
    next hs =>
      by_cases ho : other = name
      · subst ho
        have hnone : scope.functions.find? other = Option.none := by
          simpa using hs
        simpa [hnone] using ih
      · rw [if_neg ho] at ih ⊢
        simp only [findSome?_cons, ih]

/-- A scope is left alone or modified under the one name. -/
theorem map_functions_modifyIn (name : String) (f : Prototype → Prototype) (scopes : List Scope)
    (i : Nat) :
    ((modifyIn name f scopes).map (·.functions))[i]? = (scopes.map (·.functions))[i]?
      ∨ ((modifyIn name f scopes).map (·.functions))[i]?
        = (scopes.map (·.functions))[i]?.map (·.modify name f) := by
  induction scopes generalizing i with
  | nil => simp [modifyIn]
  | cons scope outer ih =>
    unfold modifyIn
    split
    · cases i with
      | zero | succ => simp
    · cases i with
      | zero => simp
      | succ i => simpa using ih i

section

variable (t : SymbolTable) (name : String) (f : Prototype → Prototype)

theorem functionScopes_modifyFunction (i : Nat) :
    (t.modifyFunction name f).functionScopes[i]? = t.functionScopes[i]?
      ∨ (t.modifyFunction name f).functionScopes[i]?
        = t.functionScopes[i]?.map (·.modify name f) :=
  map_functions_modifyIn name f t.scopes i

@[simp] theorem length_scopes_modifyFunction :
    (t.modifyFunction name f).scopes.length = t.scopes.length := by
  have h := congrArg List.length (map_types_modifyIn name f t.scopes)
  simpa [modifyFunction] using h

@[simp] theorem typeScopes_modifyFunction : (t.modifyFunction name f).typeScopes = t.typeScopes :=
  map_types_modifyIn name f t.scopes

@[simp] theorem varScopes_modifyFunction : (t.modifyFunction name f).varScopes = t.varScopes :=
  map_vars_modifyIn name f t.scopes

/-- Modifying a prototype shows under its name only. -/
theorem findFunction?_modifyFunction (other : String) :
    (t.modifyFunction name f).findFunction? other
      = if other = name then (t.findFunction? other).map f else t.findFunction? other :=
  findSome?_modifyIn name other f t.scopes

end

end SymbolTable

end Shading
