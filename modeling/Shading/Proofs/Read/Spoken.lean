/-
  Shading.Proofs.Read.Spoken — the names that a text can use.

  A symbol table may bind names that are no symbols, by which no text can mention anything.  Reading
  does not find them: a node that can be written is read as if they were not there.
-/
import Shading.Proofs.Scan.Renumber
import Shading.Proofs.Sexp.Words

namespace Shading

open List

/-! ## §1. Tables -/

/-- The bindings of names that a text can use. -/
def Bindings.spoken {α : Type} (b : Bindings α) : Bindings α := b.filter fun e => IsSymbol e.1

/-- The table with the names that a text can use. -/
def SymbolTable.spoken (t : SymbolTable) : SymbolTable :=
  ⟨t.scopes.map fun scope => ⟨scope.types.spoken, scope.vars.spoken, scope.functions.spoken⟩⟩

/-- Names that a text can hold are found as before. -/
theorem Bindings.find?_spoken {α : Type} (b : Bindings α) {name : String} (h : IsSymbol name) :
    b.spoken.find? name = b.find? name := by
  induction b with
  | nil => rfl
  | cons e rest ih =>
    obtain ⟨key, value⟩ := e
    unfold spoken find? at ih ⊢
    by_cases hkey : name = key
    · subst hkey
      simp [h]
    · have hne : (name == key) = false := by simpa using hkey
      rw [filter_cons]
      split
      · simp [lookup_cons, hne, ih]
      · simp [lookup_cons, hne, ih]

section
variable (t : SymbolTable) {name : String} (h : IsSymbol name)
include h

theorem SymbolTable.findType?_spoken : t.spoken.findType? name = t.findType? name := by
  simp only [findType?, spoken, findSome?_map, Function.comp_def, Bindings.find?_spoken _ h]

theorem SymbolTable.findVariable?_spoken : t.spoken.findVariable? name = t.findVariable? name := by
  simp only [findVariable?, spoken, findSome?_map, Function.comp_def, Bindings.find?_spoken _ h]

theorem SymbolTable.findFunction?_spoken : t.spoken.findFunction? name = t.findFunction? name := by
  simp only [findFunction?, spoken, findSome?_map, Function.comp_def, Bindings.find?_spoken _ h]

end

/-- What the value is read in, with the names that a text can use. -/
def Env.spoken (env : Env) : Env := { env with symbols := env.symbols.spoken }

variable {env : Env} {node : Node} {nodes : List Node}

/-! ## §2. What was read -/

theorem Env.carries_spoken (env : Env) : env.Carries Node.Readable (fun v => v) env.spoken where
  items := Node.readable_list.mp
  types := SymbolTable.findType?_spoken env.symbols
  vars := fun hname => by
    rw [Option.map_id']
    exact SymbolTable.findVariable?_spoken env.symbols hname
  functions := fun hname hp =>
    ⟨_, (SymbolTable.findFunction?_spoken env.symbols hname).trans hp, .refl _⟩

/-- **A node that can be written is read without the names that cannot.** -/
theorem Env.gives_spoken (env : Env) : env.Gives Node.Readable (Rvalue.Made env.spoken) where
  items := Node.readable_list.mp
  value := fun {node r} hnode h => by
    have hread := (readRvalue_iff.mp h).carry env.carries_spoken (fun _ => rfl) hnode
    rw [Rvalue.rename_id] at hread
    exact readRvalue_made (readRvalue_iff.mpr hread)

end Shading
