/-
  Shading.Scope — names and what they stand for.

  A `SymbolTable` is a stack of scopes.  Each scope binds types, variables and functions separately;
  looking a name up takes the innermost scope that binds it.  Variables may be rebound in a scope,
  types and functions may not.
-/
import Shading.Ir.Variable
import Shading.Ty.Builtin

namespace Shading

/-! ## §1. Prototypes -/

/-- What callers know of an overload of a function. -/
structure Overload where
  returnType : Ty
  parameters : List Var
  isDefined : Bool
deriving DecidableEq, Inhabited

/-- The types of the parameters. -/
def Overload.types (o : Overload) : List Ty := o.parameters.map (·.ty)

/-- What callers know of a function. -/
structure Prototype where
  name : String
  overloads : List Overload
deriving DecidableEq, Inhabited

namespace Prototype

/-- A function without overloads. -/
def empty (name : String) : Prototype := ⟨name, []⟩

/-- The place of the first overload with exactly these parameter types. -/
def matching? (p : Prototype) (types : List Ty) : Option Nat :=
  p.overloads.findIdx? (·.types = types)

/-- The prototype with one more overload at the end. -/
def add (p : Prototype) (o : Overload) : Prototype := { p with overloads := p.overloads ++ [o] }

/-- The prototype with one overload changed. -/
def modify (p : Prototype) (i : Nat) (f : Overload → Overload) : Prototype :=
  { p with overloads := p.overloads.modify i f }

end Prototype

/-! ## §2. Bindings -/

/-- Names and what they are bound to, the latest binding of a name first. -/
abbrev Bindings (α : Type) := List (String × α)

namespace Bindings

variable {α : Type}

/-- What the name is bound to. -/
def find? (b : Bindings α) (name : String) : Option α := b.lookup name

/-- The bindings with one more, which hides an older one of that name. -/
def bind (b : Bindings α) (name : String) (value : α) : Bindings α := (name, value) :: b

/-- The bindings with what the name is bound to changed. -/
def modify (b : Bindings α) (name : String) (f : α → α) : Bindings α :=
  b.map fun (n, value) => if n = name then (n, f value) else (n, value)

/-- The bindings with one more, unless the name is bound already. -/
def bindNew (b : Bindings α) (name : String) (value : α) : Bool × Bindings α :=
  match b.find? name with
  | some _ => (false, b)
  | none => (true, b.bind name value)

end Bindings

/-- The names bound in one scope. -/
structure Scope where
  types : Bindings Ty := []
  vars : Bindings Var := []
  functions : Bindings Prototype := []
deriving DecidableEq, Inhabited

/-! ## §3. Symbol tables -/

/-- A stack of scopes, innermost first. -/
structure SymbolTable where
  scopes : List Scope
deriving DecidableEq, Inhabited

namespace SymbolTable

/-- No scope at all. -/
def none : SymbolTable := ⟨[]⟩

/-- One scope with nothing in it. -/
def empty : SymbolTable := ⟨[{}]⟩

/-- How many scopes are open. -/
def depth (t : SymbolTable) : Nat := t.scopes.length

/-- Opens a scope. -/
def push (t : SymbolTable) : SymbolTable := ⟨{} :: t.scopes⟩

/-- Closes the innermost scope, if there is one. -/
def pop (t : SymbolTable) : SymbolTable := ⟨t.scopes.tail⟩

/-- The table with a scope to bind in. -/
def opened (t : SymbolTable) : SymbolTable :=
  match t.scopes with
  | [] => empty
  | _ :: _ => t

/-- Changes the innermost scope, opening one if there is none. -/
def onInnermost {α : Type} (t : SymbolTable) (f : Scope → α × Scope) : α × SymbolTable :=
  match t.scopes with
  | [] =>
    let (a, scope) := f {}
    (a, ⟨[scope]⟩)
  | scope :: outer =>
    let (a, scope) := f scope
    (a, ⟨scope :: outer⟩)

/-- Binds a type in the innermost scope, unless the name is bound there. -/
def addType (t : SymbolTable) (name : String) (ty : Ty) : Bool × SymbolTable :=
  t.onInnermost fun scope =>
    let (added, types) := scope.types.bindNew name ty
    (added, { scope with types })

/-- Binds a variable to its name in the innermost scope; the answer is the variable it replaces
    there. -/
def addVariable (t : SymbolTable) (v : Var) : Option Var × SymbolTable :=
  t.onInnermost fun scope =>
    (scope.vars.find? v.name, { scope with vars := scope.vars.bind v.name v })

/-- Binds a function in one scope, unless the name is bound there. -/
def bindFunction (p : Prototype) (scope : Scope) : Bool × Scope :=
  let (added, functions) := scope.functions.bindNew p.name p
  (added, { scope with functions })

/-- Binds a function in the innermost scope, unless the name is bound there. -/
def addFunction (t : SymbolTable) (p : Prototype) : Bool × SymbolTable :=
  t.onInnermost (bindFunction p)

/-- Binds a function in the scope that `n` other scopes are inside of, unless the name is bound
    there. -/
def bindOutside (p : Prototype) : Nat → List Scope → Bool × List Scope
  | _, [] => (false, [])
  | 0, scope :: outer =>
    let (added, scope) := bindFunction p scope
    (added, scope :: outer)
  | n + 1, scope :: outer =>
    let (added, outer) := bindOutside p n outer
    (added, scope :: outer)

/-- Binds a function in the scope at a depth, the outermost scope having depth one; a depth out of
    range stands for the nearest one.  A scope is opened if there is none. -/
def addFunctionAt (t : SymbolTable) (depth : Nat) (p : Prototype) : Bool × SymbolTable :=
  let scopes := t.opened.scopes
  let (added, scopes) := bindOutside p (scopes.length - max 1 (min depth scopes.length)) scopes
  (added, ⟨scopes⟩)

/-- The type of that name. -/
def findType? (t : SymbolTable) (name : String) : Option Ty :=
  t.scopes.findSome? fun scope => scope.types.find? name

/-- The variable of that name. -/
def findVariable? (t : SymbolTable) (name : String) : Option Var :=
  t.scopes.findSome? fun scope => scope.vars.find? name

/-- The function of that name. -/
def findFunction? (t : SymbolTable) (name : String) : Option Prototype :=
  t.scopes.findSome? fun scope => scope.functions.find? name

/-- Changes the function of that name where the innermost scope that binds it does. -/
def modifyIn (name : String) (f : Prototype → Prototype) : List Scope → List Scope
  | [] => []
  | scope :: outer =>
    if (scope.functions.find? name).isSome then
      { scope with functions := scope.functions.modify name f } :: outer
    else scope :: modifyIn name f outer

/-- Changes what the name of a function stands for. -/
def modifyFunction (t : SymbolTable) (name : String) (f : Prototype → Prototype) : SymbolTable :=
  ⟨modifyIn name f t.scopes⟩

/-- One scope that binds the built-in types. -/
def withBuiltins : SymbolTable :=
  Ty.builtins.foldl (fun t ty =>
    match ty.name? with
    | some name => (t.addType name ty).2
    | Option.none => t) empty

end SymbolTable

end Shading
