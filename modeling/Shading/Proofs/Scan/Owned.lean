/-
  Shading.Proofs.Scan.Owned — units that have made their variables.

  A unit owns the variables of its table if its storage has numbered them: then a variable that is
  made later is none of them.  A fresh unit binds no variable, and reading binds only variables that
  it has made, so every unit that comes from reading texts one after another owns its variables.
-/
import Shading.Proofs.Read.InStep
import Shading.Proofs.Scan.Lockstep

namespace Shading

open List

/-! ## §1. Tables of variables below a number -/

/-- The parameters are numbered below. -/
def Prototype.Below (n : Nat) (p : Prototype) : Prop :=
  ∀ o ∈ p.overloads, ∀ v ∈ o.parameters, v.id < n

/-- The variables that the table binds, and the parameters of its functions, are numbered below. -/
structure SymbolTable.Below (n : Nat) (t : SymbolTable) : Prop where
  vars : ∀ b ∈ t.varScopes, ∀ entry ∈ b, entry.2.id < n
  functions : ∀ b ∈ t.functionScopes, ∀ entry ∈ b, entry.2.Below n

namespace Prototype.Below

variable {n : Nat} {p : Prototype}

theorem mono {m : Nat} (h : p.Below n) (hle : n ≤ m) : p.Below m :=
  fun o ho v hv => Nat.lt_of_lt_of_le (h o ho v hv) hle

theorem add (h : p.Below n) (returnType : Ty) : (p.add ⟨returnType, [], false⟩).Below n := by
  intro o ho
  rcases mem_append.mp ho with ho | ho
  · exact h o ho
  · rw [mem_singleton.mp ho]
    exact nofun

theorem modify (h : p.Below n) (i : Nat) {f : Overload → Overload}
    (hf : ∀ o ∈ p.overloads, ∀ v ∈ (f o).parameters, v.id < n) : (p.modify i f).Below n := by
  intro o ho
  rcases mem_modify ho with ho | ⟨o', ho', rfl⟩
  · exact h o ho
  · exact hf o' (mem_of_getElem? ho')

end Prototype.Below

namespace SymbolTable.Below

variable {n : Nat} {t : SymbolTable}

theorem mono {m : Nat} (h : t.Below n) (hle : n ≤ m) : t.Below m where
  vars := fun b hb entry hentry => Nat.lt_of_lt_of_le (h.vars b hb entry hentry) hle
  functions := fun b hb entry hentry => (h.functions b hb entry hentry).mono hle

theorem prototypes (h : t.Below n) : t.Functions fun _ p => p.Below n := h.functions

theorem push (h : t.Below n) : t.push.Below n where
  vars := forall_mem_cons.mpr ⟨fun _ hentry => absurd hentry not_mem_nil, h.vars⟩
  functions := h.prototypes.push

theorem pop (h : t.Below n) : t.pop.Below n where
  vars := by
    rw [varScopes_pop]
    exact fun b hb => h.vars b (mem_of_mem_tail hb)
  functions := h.prototypes.pop

theorem addVariable (h : t.Below n) {v : Var} (hv : v.id < n) (hopen : t.scopes ≠ []) :
    (t.addVariable v).2.Below n where
  vars := by
    rw [varScopes_addVariable _ _ hopen]
    have hvars := h.vars
    generalize t.varScopes = bs at hvars
    cases bs with
    | nil => exact nofun
    | cons b outer =>
      obtain ⟨hb, houter⟩ := forall_mem_cons.mp hvars
      exact forall_mem_cons.mpr ⟨forall_mem_cons.mpr ⟨hv, hb⟩, houter⟩
  functions := by
    rw [functionScopes_addVariable _ _ hopen]
    exact h.functions

theorem modifyFunction (h : t.Below n) (name : String) {f : Prototype → Prototype}
    (hf : ∀ p, p.Below n → (f p).Below n) : (t.modifyFunction name f).Below n where
  vars := by
    rw [varScopes_modifyFunction]
    exact h.vars
  functions := h.prototypes.modifyFunction name hf

end SymbolTable.Below

/-! ## §2. Reading binds what it has made -/

/-- The variables of the table have been made. -/
def ReadState.Owned (s : ReadState) : Prop := s.symbols.Below s.storage.vars.issued

/-- **Each step of reading binds only variables that it has made.** -/
theorem owned_frame (d : Nat) : Frame d fun s s' => s.Owned → s'.Owned where
  refl := fun _ h => h
  trans := fun _ _ _ h1 h2 h => h2 (h1 h)
  takeLoop := fun _ h => h
  declare := by
    intro s v hopen h
    have hlater : s.symbols.Below (s.storage.vars.issued + 1) := h.mono (Nat.le_succ _)
    exact hlater.addVariable (Nat.lt_succ_self _) hopen
  slot := by
    intro s cx name _ hopen h
    have hfunctions := h.prototypes.slot cx (show (Prototype.empty name).Below _ from nofun)
    unfold ReadState.Owned
    rw [storage_slot]
    refine ⟨?_, hfunctions⟩
    rw [varScopes_slot s cx name hopen]
    exact h.vars
  registers := by
    intro slot name returnType parameters index s s' _ hmade hreg h
    have hset : ∀ i, ∀ p : Prototype, p.Below s.storage.vars.issued →
        (p.modify i ({ · with parameters })).Below s.storage.vars.issued :=
      fun i p hp => hp.modify i fun _ _ => hmade
    cases hreg with
    | repeated => exact SymbolTable.Below.modifyFunction h name (hset index)
    | added =>
      exact (SymbolTable.Below.modifyFunction h name fun p hp => hp.add returnType).modifyFunction name
        (hset _)
  complete := fun s slot name index body _ _ h =>
    SymbolTable.Below.modifyFunction h name fun p hp => hp.modify index hp
  scope := fun s s' _ hinner h => (hinner h.push).pop

/-! ## §3. Units -/

/-- The storage has made the variables of the table. -/
def CompilationUnit.Owned (u : CompilationUnit) : Prop := u.symbols.Below u.storage.vars.issued

theorem owned_fresh : CompilationUnit.fresh.Owned := by
  have hvars : ∀ b ∈ CompilationUnit.fresh.symbols.varScopes, b = [] := by decide +kernel
  have hfunctions : ∀ b ∈ CompilationUnit.fresh.symbols.functionScopes, b = [] := by
    decide +kernel
  refine ⟨fun b hb => ?_, fun b hb => ?_⟩
  · rw [hvars b hb]
    exact nofun
  · rw [hfunctions b hb]
    exact nofun

/-- **A unit owns its variables after each text**, whether it was read or not. -/
theorem owned_readModule (scan : Bool) {u : CompilationUnit} (text : String)
    (hopen : u.symbols.scopes ≠ []) (howned : u.Owned) : (readModule scan u text).after.Owned := by
  cases hnodes : readExpressions text with
  | error e =>
    simp only [readModule, hnodes]
    exact howned
  | ok nodes =>
    rw [readModule_eq hnodes]
    have hmirrors := mirrors_document (s := u.start) (S := fun _ => True) (owned_frame _)
      (fun _ _ h => h) (fun node (_ : node ∈ Read.documentNodes nodes) _ _ => trivial) scan
      (held_start u)
    exact hmirrors.ends.related.related hopen howned

end Shading
