/-
  Shading.Proofs.Scan.Blocks — blocks read further ahead.

  `Ahead first ahead a b` says that the state `b` has made `ahead` more variables than `a`, all of
  them before those that `a` has numbered from `first` on, and else binds the same types and
  variables and has met as many loops.  A block without functions that is read in `a` is read in `b`
  too, if `b` knows the functions that `a` knows, and the two states stay so.
-/
import Shading.Proofs.RoundTrip.Functions
import Shading.Proofs.Scan.Renumber

namespace Shading

open List

/-! ## §1. Numbers that are shifted -/

/-- The numbers from `first` on, moved up. -/
def shifted (first ahead n : Nat) : Nat := if n < first then n else n + ahead

variable {first ahead : Nat}

theorem shifted_of_lt {n : Nat} (h : n < first) : shifted first ahead n = n := if_pos h

theorem shifted_of_le {n : Nat} (h : first ≤ n) : shifted first ahead n = n + ahead :=
  if_neg (by omega)

theorem shifted_injective (first ahead : Nat) : (shifted first ahead).Injective := by
  intro m n h
  unfold shifted at h
  split at h <;> split at h <;> omega

/-- The variable with its number moved up, if it is one from `first` on. -/
abbrev Var.shift (first ahead : Nat) : Var → Var := Var.renumber (shifted first ahead)

theorem renumbers_shift (first ahead : Nat) : Renumbers (Var.shift first ahead) :=
  renumbers_renumber _

/-! ## §2. States that are ahead -/

/-- The bindings with what names are bound to replaced. -/
def Bindings.mapValues {α β : Type} (f : α → β) (b : Bindings α) : Bindings β :=
  b.map fun entry => (entry.1, f entry.2)

theorem Bindings.find?_mapValues {α β : Type} (f : α → β) (b : Bindings α) (name : String) :
    (b.mapValues f).find? name = (b.find? name).map f := by
  unfold find? mapValues
  induction b with
  | nil => rfl
  | cons entry rest ih =>
    rw [map_cons, lookup_cons, lookup_cons, ih]
    cases name == entry.1 <;> rfl

/-- The second state binds what the first one binds, but has made more variables. -/
structure Ahead (first ahead : Nat) (a b : ReadState) : Prop where
  le : first ≤ a.storage.vars.issued
  vars : b.storage.vars.issued = a.storage.vars.issued + ahead
  loops : b.storage.loops = a.storage.loops
  types : b.symbols.typeScopes = a.symbols.typeScopes
  bound : b.symbols.varScopes = a.symbols.varScopes.map (·.mapValues (Var.shift first ahead))

theorem SymbolTable.length_typeScopes (t : SymbolTable) : t.typeScopes.length = t.scopes.length :=
  length_map _

variable {a' : ReadState} {cx : Context}

namespace Ahead

variable {first ahead : Nat} {a b : ReadState}

theorem length_scopes (h : Ahead first ahead a b) :
    b.symbols.scopes.length = a.symbols.scopes.length := by
  rw [← SymbolTable.length_typeScopes, h.types, SymbolTable.length_typeScopes]

theorem ne_nil (h : Ahead first ahead a b) (hopen : a.symbols.scopes ≠ []) :
    b.symbols.scopes ≠ [] := by
  rw [← length_pos_iff, h.length_scopes]
  exact length_pos_iff.mpr hopen

theorem of_eq (h : Ahead first ahead a b) {b' : ReadState} (hstorage : a'.storage = a.storage)
    (hstorage' : b'.storage = b.storage) (htypes : a'.symbols.typeScopes = a.symbols.typeScopes)
    (htypes' : b'.symbols.typeScopes = b.symbols.typeScopes)
    (hvars : a'.symbols.varScopes = a.symbols.varScopes)
    (hvars' : b'.symbols.varScopes = b.symbols.varScopes) : Ahead first ahead a' b' := by
  refine ⟨?_, ?_, ?_, ?_, ?_⟩
  · rw [hstorage]
    exact h.le
  · rw [hstorage, hstorage']
    exact h.vars
  · rw [hstorage, hstorage']
    exact h.loops
  · rw [htypes, htypes']
    exact h.types
  · rw [hvars, hvars']
    exact h.bound

theorem nextVar (h : Ahead first ahead a b) (v : Variable) :
    b.nextVar v = (a.nextVar v).shift first ahead := by
  show (⟨b.storage.vars.issued, v⟩ : Var) = ⟨shifted first ahead a.storage.vars.issued, v⟩
  rw [h.vars, shifted_of_le h.le]

theorem nextLoop (h : Ahead first ahead a b) : b.nextLoop = a.nextLoop := by
  show (⟨b.storage.loops.issued⟩ : LoopId) = ⟨a.storage.loops.issued⟩
  rw [h.loops]

theorem takeLoop (h : Ahead first ahead a b) : Ahead first ahead a.takeLoop b.takeLoop where
  le := h.le
  vars := h.vars
  loops := by
    show b.storage.loops.take.2 = a.storage.loops.take.2
    rw [h.loops]
  types := h.types
  bound := h.bound

/-- Declaring keeps the distance. -/
theorem declare (h : Ahead first ahead a b) (hopen : a.symbols.scopes ≠ []) (v : Variable) :
    Ahead first ahead (a.declare v) (b.declare v) where
  le := Nat.le_succ_of_le h.le
  vars := by
    show b.storage.vars.issued + 1 = a.storage.vars.issued + 1 + ahead
    rw [h.vars]
    omega
  loops := h.loops
  types := by
    show (b.symbols.addVariable _).2.typeScopes = (a.symbols.addVariable _).2.typeScopes
    rw [SymbolTable.typeScopes_addVariable _ _ hopen,
      SymbolTable.typeScopes_addVariable _ _ (h.ne_nil hopen), h.types]
  bound := by
    show (b.symbols.addVariable _).2.varScopes = (a.symbols.addVariable _).2.varScopes.map _
    rw [SymbolTable.varScopes_addVariable _ _ hopen,
      SymbolTable.varScopes_addVariable _ _ (h.ne_nil hopen), h.bound, h.nextVar]
    cases a.symbols.varScopes <;> rfl

theorem opened (h : Ahead first ahead a b) : Ahead first ahead a.opened b.opened where
  le := h.le
  vars := h.vars
  loops := h.loops
  types := congrArg ([] :: ·) h.types
  bound := congrArg ([] :: ·) h.bound

theorem closed (h : Ahead first ahead a b) : Ahead first ahead a.closed b.closed where
  le := h.le
  vars := h.vars
  loops := h.loops
  types := by
    show b.symbols.pop.typeScopes = a.symbols.pop.typeScopes
    rw [SymbolTable.typeScopes_pop, SymbolTable.typeScopes_pop, h.types]
  bound := by
    show b.symbols.pop.varScopes = a.symbols.pop.varScopes.map _
    rw [SymbolTable.varScopes_pop, SymbolTable.varScopes_pop, h.bound, map_tail]

theorem onFunction (h : Ahead first ahead a b) (slot slot' : Nat) (name : String)
    (f f' : Prototype → Prototype) (g g' : List Signature → List Signature) :
    Ahead first ahead (a.onFunction slot name f g) (b.onFunction slot' name f' g') :=
  h.of_eq rfl rfl (a.symbols.typeScopes_modifyFunction name f)
    (b.symbols.typeScopes_modifyFunction name f') (a.symbols.varScopes_modifyFunction name f)
    (b.symbols.varScopes_modifyFunction name f')

/-- What is read behind is read ahead, renumbered. -/
theorem carries (h : Ahead first ahead a b) (hgrows : a.symbols.Grows b.symbols) (cx : Context) :
    (a.env cx).Carries (fun _ => True) (Var.shift first ahead) (b.env cx) where
  items := fun _ _ _ => trivial
  types := fun _ => findType?_congr h.types _
  vars := by
    intro name _
    show b.symbols.findVariable? name = (a.symbols.findVariable? name).map _
    rw [SymbolTable.findVariable?_eq, SymbolTable.findVariable?_eq, h.bound]
    induction a.symbols.varScopes with
    | nil => rfl
    | cons scope outer ih =>
      rw [map_cons, findSome?_cons, findSome?_cons, Bindings.find?_mapValues]
      cases scope.find? name with
      | none => exact ih
      | some v => rfl
  functions := fun _ => hgrows _ _

theorem declares {nodes : List Node} {vs : List Var} (h : Ahead first ahead a b)
    (hdecl : Declares cx nodes vs a a') :
    ∃ b', Declares cx nodes (vs.map (Var.shift first ahead)) b b' ∧ Ahead first ahead a' b' := by
  induction hdecl generalizing b with
  | nil s => exact ⟨b, .nil b, h⟩
  | @cons node rest v vs s s' head others ih =>
    obtain ⟨-, ty, -, t, -, ht, -⟩ := readVariable_eq_ok.mp head
    have hopen : s.symbols.scopes ≠ [] := scopes_ne_nil_of_readType ht
    obtain ⟨b', hothers, hb'⟩ := ih (h.declare hopen v)
    refine ⟨b', ?_, hb'⟩
    rw [map_cons, ← h.nextVar]
    exact .cons (readVariable_congr h.types head) hothers

end Ahead

/-! ## §3. Blocks without functions -/

theorem functionScopes_declare {s : ReadState} (hopen : s.symbols.scopes ≠ []) (v : Variable) :
    (s.declare v).symbols.functionScopes = s.symbols.functionScopes :=
  s.symbols.functionScopes_addVariable _ hopen

theorem findFunction?_congr {t u : SymbolTable} (h : u.functionScopes = t.functionScopes)
    (name : String) : u.findFunction? name = t.findFunction? name := by
  rw [SymbolTable.findFunction?_eq, h, ← SymbolTable.findFunction?_eq]

theorem Reads.keepsBound {reading : Reading} {s s' : ReadState} (h : Reads cx reading s s')
    (hflat : reading.Flat) : reading.Keeps (·.symbols.functionScopes) s s' :=
  h.keeps_of_flat (fun _ v hopen => functionScopes_declare hopen v) (fun _ => rfl) hflat

theorem SymbolTable.Grows.congr {t t' u u' : SymbolTable} (h : t.Grows u)
    (ht : t'.functionScopes = t.functionScopes) (hu : u'.functionScopes = u.functionScopes) :
    t'.Grows u' := by
  intro name p hp
  rw [findFunction?_congr ht] at hp
  rw [findFunction?_congr hu]
  exact h name p hp

theorem Instruction.substituteAll_toList_append (f : Var → Var) (g : LoopId → LoopId)
    (i : Option Instruction) (is : List Instruction) :
    Instruction.substituteAll f g (i.toList ++ is)
      = (i.map (·.substitute f g)).toList ++ Instruction.substituteAll f g is := by
  cases i <;> rfl

/-- What is read in blocks is read in the second state, with variables shifted, and leaves a state
    that is ahead of the one left by the first. -/
def Reading.Follows (first ahead : Nat) (cx : Context) (a' b : ReadState) : Reading → Prop
  | .instruction node i => ∃ b',
    Reads cx (.instruction node (i.map (·.substitute (Var.shift first ahead) id))) b b'
      ∧ Ahead first ahead a' b'
  | .instructions nodes is => ∃ b',
    Reads cx (.instructions nodes (Instruction.substituteAll (Var.shift first ahead) id is)) b b'
      ∧ Ahead first ahead a' b'
  | _ => True

/-- **Blocks without functions are read alike in a state that is ahead.** -/
theorem Reads.follows {reading : Reading} {a b : ReadState} (h : Reads cx reading a a')
    (hflat : reading.Flat) (hab : Ahead first ahead a b) (hgrows : a.symbols.Grows b.symbols) :
    reading.Follows first ahead cx a' b := by
  have hshift := renumbers_shift first ahead
  induction h generalizing b with
  | jump mode enclosing => exact ⟨b, .jump mode enclosing, hab⟩
  | declare declaration =>
    obtain ⟨-, ty, -, t, -, ht, -⟩ := readVariable_eq_ok.mp declaration
    refine ⟨_, ?_, hab.declare (scopes_ne_nil_of_readType ht) _⟩
    rw [Option.map_some, Instruction.substitute, ← hab.nextVar]
    exact .declare (readVariable_congr hab.types declaration)
  | function inner ih => cases hflat.1
  | assign assignment =>
    exact ⟨b, .assign ((hab.carries hgrows _).readAssignment hshift assignment), hab⟩
  | branch value first second ih1 ih2 =>
    obtain ⟨hflat1, hflat2⟩ := Node.isFlat_branch.mp hflat.2
    obtain ⟨b1, hfirst, hab1⟩ := ih1 hflat1 hab hgrows
    have hgrows1 := hgrows.congr (first.keepsBound hflat1) (hfirst.keepsBound hflat1)
    obtain ⟨b', hsecond, hab'⟩ := ih2 hflat2 hab1 hgrows1
    exact ⟨b', .branch ((hab.carries hgrows _).readRvalue hshift value) hfirst hsecond, hab'⟩
  | @loop cx s s' whole _ _ _ _ _ controls body header inner ih =>
    obtain ⟨b', hinner, hab'⟩ := ih hflat.2 hab.takeLoop hgrows
    have hheader := (hab.carries hgrows cx).readControls hshift header
    rw [← hab.nextLoop] at hinner
    refine ⟨b', ?_, hab'⟩
    rw [Option.map_some, Instruction.substitute, id, ← hab.nextLoop]
    exact .loop hheader hinner
  | ret returned => exact ⟨b, .ret ((hab.carries hgrows _).readReturn hshift returned), hab⟩
  | rvalue value => exact ⟨b, .rvalue ((hab.carries hgrows _).readRvalue hshift value), hab⟩
  | nil => exact ⟨b, .nil, hab⟩
  | cons first others ih1 ih2 =>
    obtain ⟨hfun, hnode, hrest⟩ := Node.isFlatBlock_cons.mp hflat
    obtain ⟨b1, hfirst, hab1⟩ := ih1 ⟨hfun, hnode⟩ hab hgrows
    have hgrows1 := hgrows.congr (first.keepsBound ⟨hfun, hnode⟩) (hfirst.keepsBound ⟨hfun, hnode⟩)
    obtain ⟨b', hothers, hab'⟩ := ih2 hrest hab1 hgrows1
    refine ⟨b', ?_, hab'⟩
    rw [Instruction.substituteAll_toList_append]
    exact .cons hfirst hothers
  | overloads | noMore | more | prototype | definition => trivial

end Shading
