/-
  Shading.Proofs.Read.Run — what a successful reading does to the state.

  `ReadM.Yields x s a s'` says that the computation `x`, started in the state `s`, succeeds with `a`
  and leaves the state `s'`.  The lemmas of this module say exactly when each step of the reader
  yields something, and through what change of the state; proofs about the reader cite them and
  never unfold the monad.
-/
import Shading.Proofs.Scope
import Shading.Read.Module

namespace Shading

variable {u : Unit} {cx : Context} {node : Node} {name : String}

/-! ## §1. Checks of values -/

variable {ε α β : Type} {x : Except ε α}

/-- A sequence gives a result if both of its parts do. -/
theorem except_bind_eq_ok {f : α → Except ε β} {b : β} :
    (x >>= f) = .ok b ↔ ∃ a, x = .ok a ∧ f a = .ok b := by
  cases x with
  | error e =>
    constructor
    · intro h
      cases h
    · rintro ⟨a, ha, -⟩
      cases ha
  | ok a =>
    constructor
    · intro h
      exact ⟨a, rfl, h⟩
    · rintro ⟨a', ha, h⟩
      cases ha
      exact h

theorem except_map_eq_ok {f : α → β} {b : β} : (f <$> x) = .ok b ↔ ∃ a, x = .ok a ∧ f a = b := by
  cases x with
  | error e =>
    constructor
    · intro h
      cases h
    · rintro ⟨a, ha, -⟩
      cases ha
  | ok a =>
    constructor
    · intro h
      cases h
      exact ⟨a, rfl, rfl⟩
    · rintro ⟨a', ha, rfl⟩
      cases ha
      rfl

theorem exists_ok_of_any {p : α → Bool} (h : x.toOption.any p = true) :
    ∃ a, x = .ok a ∧ p a = true := by
  cases x with
  | error e => cases h
  | ok a => exact ⟨a, rfl, h⟩

theorem exists_ok_of_decide {P : α → Prop} [DecidablePred P]
    (h : x.toOption.any (fun a => P a) = true) : ∃ a, x = .ok a ∧ P a := by
  obtain ⟨a, ha, hP⟩ := exists_ok_of_any h
  exact ⟨a, ha, of_decide_eq_true hP⟩

namespace Env

variable {α : Type} {env : Env} {node : Node} {p : Problem}

@[simp] theorem fail_ne_ok {a : α} : ¬ env.fail node p = .ok a := nofun

@[simp] theorem require_eq_ok {o : Option α} {a : α} :
    env.require node p o = .ok a ↔ o = some a := by
  cases o with
  | none | some => simp [require]

@[simp] theorem assert_eq_ok {c : Bool} : env.assert node p c = .ok u ↔ c = true := by
  cases c with
  | false | true => simp [assert]

@[simp] theorem check_eq_ok {x : Except Fault α} {a : α} :
    env.check node x = .ok a ↔ x = .ok a := by
  cases x with
  | error | ok => simp [check]

end Env

/-! ## §2. Changes of the state -/

namespace ReadState

/-- What values are read in at this point. -/
def env (cx : Context) (s : ReadState) : Env := ⟨s.symbols, cx.function⟩

/-- The variable that a declaration makes. -/
def nextVar (s : ReadState) (v : Variable) : Var := (s.storage.declare v).1

/-- The state after a declaration. -/
def declare (s : ReadState) (v : Variable) : ReadState :=
  { s with
    storage := (s.storage.declare v).2
    symbols := (s.symbols.addVariable (s.nextVar v)).2 }

/-- The identity of the next loop. -/
def nextLoop (s : ReadState) : LoopId := s.storage.newLoop.1

/-- The state after a loop has been numbered. -/
def takeLoop (s : ReadState) : ReadState := { s with storage := s.storage.newLoop.2 }

/-- The state with a scope opened. -/
def opened (s : ReadState) : ReadState := { s with symbols := s.symbols.push }

/-- The state with the innermost scope closed. -/
def closed (s : ReadState) : ReadState := { s with symbols := s.symbols.pop }

/-- The overloads of the function at a place that were met so far. -/
def signatures (s : ReadState) (slot : Nat) : List Signature :=
  (s.functions[slot]?.map (·.signatures)).getD []

/-- The place of a function among those met, and the state in which it is one of them. -/
def slot (cx : Context) (name : String) (s : ReadState) : Nat × ReadState :=
  match s.functions.findIdx? (·.name == name) with
  | some slot => (slot, s)
  | none =>
    match s.symbols.findFunction? name with
    | some p =>
      (s.functions.length,
        { s with
          functions := s.functions ++ [⟨name, p.overloads.map fun o =>
            ⟨o.returnType, o.parameters, [], o.isDefined⟩⟩]
          notes := .alreadyDeclared name :: s.notes })
    | none =>
      (s.functions.length,
        { s with
          symbols := (s.symbols.addFunctionAt cx.globalDepth (.empty name)).2
          functions := s.functions ++ [⟨name, []⟩] })

/-- The state with the overloads of one function changed, in the prototype and among those met. -/
def onFunction (s : ReadState) (slot : Nat) (name : String) (f : Prototype → Prototype)
    (g : List Signature → List Signature) : ReadState :=
  { s with
    symbols := s.symbols.modifyFunction name f
    functions := s.functions.modify slot fun h => { h with signatures := g h.signatures } }

/-- The state with one more overload, whose parameters are still to come. -/
def addOverload (s : ReadState) (slot : Nat) (name : String) (returnType : Ty) : ReadState :=
  s.onFunction slot name (·.add ⟨returnType, [], false⟩) (· ++ [.prototype returnType []])

/-- The state with the parameters of an overload. -/
def setParameters (s : ReadState) (slot : Nat) (name : String) (index : Nat)
    (parameters : List Var) : ReadState :=
  s.onFunction slot name (·.modify index ({ · with parameters }))
    (·.modify index ({ · with parameters }))

/-- The state with the body of an overload. -/
def complete (s : ReadState) (slot : Nat) (name : String) (index : Nat)
    (body : List Instruction) : ReadState :=
  s.onFunction slot name (·.modify index ({ · with isDefined := true }))
    (·.modify index ({ · with body, isDefined := true }))

end ReadState

/-! ## §3. Success -/

/-- A sequence goes on from the state its first part left. -/
theorem run_bind {σ : Type} (x : ExceptT ε (StateM σ) α) (f : α → ExceptT ε (StateM σ) β) (t : σ) :
    (x >>= f).run.run t
      = match (x.run.run t).1 with
        | .ok a => (f a).run.run (x.run.run t).2
        | .error e => (.error e, (x.run.run t).2) := by
  simp only [ExceptT.run_bind, StateT.run_bind]
  rcases x.run.run t with ⟨e | a, t'⟩
  · rfl
  · rfl

namespace ReadM

/-- The computation succeeds with that answer and leaves that state. -/
def Yields {α : Type} (x : ReadM α) (s : ReadState) (a : α) (s' : ReadState) : Prop :=
  x.run.run s = (.ok a, s')

variable {α β : Type} {s s' : ReadState}

theorem Yields.unique {x : ReadM α} {a b : α} {s1 s2 : ReadState} (h1 : Yields x s a s1)
    (h2 : Yields x s b s2) : a = b ∧ s1 = s2 := by
  unfold Yields at h1 h2
  rw [h1, Prod.mk.injEq, Except.ok.injEq] at h2
  exact h2

@[simp] theorem yields_pure {a b : α} :
    Yields (pure a : ReadM α) s b s' ↔ b = a ∧ s' = s := by
  constructor
  · intro h
    cases h
    exact ⟨rfl, rfl⟩
  · rintro ⟨rfl, rfl⟩
    rfl

/-- What a sequence yields, by way of the state in between. -/
theorem yields_bind {x : ReadM α} {f : α → ReadM β} {b : β} :
    Yields (x >>= f) s b s' ↔ ∃ a s1, Yields x s a s1 ∧ Yields (f a) s1 b s' := by
  unfold Yields
  simp only [ExceptT.run_bind, StateT.run_bind]
  rcases x.run.run s with ⟨e | a, s1⟩
  · constructor
    · intro h
      cases h
    · rintro ⟨a, s2, hx, -⟩
      cases hx
  · constructor
    · intro h
      exact ⟨a, s1, rfl, h⟩
    · rintro ⟨a', s2, hx, hf⟩
      cases hx
      exact hf

@[simp] theorem yields_get {a : ReadState} : Yields (get : ReadM ReadState) s a s' ↔ a = s ∧ s' = s := by
  constructor
  · intro h
    cases h
    exact ⟨rfl, rfl⟩
  · rintro ⟨rfl, rfl⟩
    rfl

@[simp] theorem yields_modify {f : ReadState → ReadState} {u : PUnit} :
    Yields (modify f : ReadM PUnit) s u s' ↔ s' = f s := by
  constructor
  · intro h
    cases h
    rfl
  · rintro rfl
    rfl

@[simp] theorem yields_fail {p : Problem} {a : α} :
    ¬ Yields (fail cx node p : ReadM α) s a s' := by
  intro h
  cases h

@[simp] theorem yields_note {n : ReadNote} :
    Yields (note n) s u s' ↔ s' = { s with notes := n :: s.notes } := yields_modify

/-- Reading without effects yields the result in the same state. -/
theorem yields_reading {f : Env → Except ReadError α} {a : α} :
    Yields (reading cx f) s a s' ↔ f (s.env cx) = .ok a ∧ s' = s := by
  show (reading.liftExcept (f (s.env cx))).run.run s = (.ok a, s') ↔ _
  cases f (s.env cx) with
  | error e =>
    constructor
    · intro h
      cases h
    · rintro ⟨h, -⟩
      cases h
  | ok b =>
    constructor
    · intro h
      cases h
      exact ⟨rfl, rfl⟩
    · rintro ⟨h, rfl⟩
      cases h
      rfl

@[simp] theorem yields_declare {v : Variable} {w : Var} :
    Yields (declare v) s w s' ↔ w = s.nextVar v ∧ s' = s.declare v := by
  constructor
  · intro h
    cases h
    exact ⟨rfl, rfl⟩
  · rintro ⟨rfl, rfl⟩
    rfl

@[simp] theorem yields_newLoop {id : LoopId} :
    Yields newLoop s id s' ↔ id = s.nextLoop ∧ s' = s.takeLoop := by
  constructor
  · intro h
    cases h
    exact ⟨rfl, rfl⟩
  · rintro ⟨rfl, rfl⟩
    rfl

/-- A scope is opened before and closed behind. -/
theorem yields_inScope {x : ReadM α} {a : α} :
    Yields (inScope x) s a s' ↔ ∃ s1, Yields x s.opened a s1 ∧ s' = s1.closed := by
  constructor
  · intro h
    unfold Yields at h
    have step : (inScope x).run.run s
        = ((x.run.run s.opened).1, (x.run.run s.opened).2.closed) := rfl
    rw [step, Prod.mk.injEq] at h
    exact ⟨(x.run.run s.opened).2, Prod.ext h.1 rfl, h.2.symm⟩
  · rintro ⟨s1, hx, rfl⟩
    unfold Yields at hx ⊢
    have step : (inScope x).run.run s
        = ((x.run.run s.opened).1, (x.run.run s.opened).2.closed) := rfl
    rw [step, hx]

/-! ## §4. Steps that extend functions -/

@[simp] theorem yields_signatures {slot : Nat} {known : List Signature} :
    Yields (signatures slot) s known s' ↔ known = s.signatures slot ∧ s' = s := by
  constructor
  · intro h
    cases h
    exact ⟨rfl, rfl⟩
  · rintro ⟨rfl, rfl⟩
    rfl

/-- A slot is found or made. -/
@[simp] theorem yields_functionSlot {slot : Nat} :
    Yields (functionSlot cx name) s slot s' ↔ (slot, s') = s.slot cx name := by
  have step : (functionSlot cx name).run.run s = (.ok (s.slot cx name).1, (s.slot cx name).2) := by
    unfold functionSlot ReadState.slot
    show (StateT.run (ExceptT.run (match s.functions.findIdx? (·.name == name) with
      | some slot => (pure slot : ReadM Nat)
      | none => _)) s) = _
    cases s.functions.findIdx? (·.name == name) with
    | some slot => rfl
    | none =>
      show (StateT.run (ExceptT.run (match s.symbols.findFunction? name with
        | some p => _
        | none => (_ : ReadM Nat))) s) = _
      cases s.symbols.findFunction? name with
      | some | none => rfl
  unfold Yields
  rw [step]
  constructor
  · intro h
    cases h
    rfl
  · intro h
    rw [← h]

@[simp] theorem yields_prototype {p : Prototype} :
    Yields (prototype cx node name) s p s'
      ↔ s.symbols.findFunction? name = some p ∧ s' = s := by
  unfold prototype
  simp only [yields_bind, yields_get]
  constructor
  · rintro ⟨_, t, ⟨rfl, rfl⟩, h⟩
    cases hf : t.symbols.findFunction? name with
    | none =>
      rw [hf] at h
      exact absurd h yields_fail
    | some q =>
      rw [hf] at h
      obtain ⟨rfl, rfl⟩ := yields_pure.mp h
      exact ⟨rfl, rfl⟩
  · rintro ⟨hf, rfl⟩
    refine ⟨s', s', ⟨rfl, rfl⟩, ?_⟩
    rw [hf]
    exact yields_pure.mpr ⟨rfl, rfl⟩

theorem yields_modifyPrototype
    {f : Prototype → Prototype} :
    Yields (modifyPrototype cx node name f) s u s'
      ↔ (s.symbols.findFunction? name).isSome
        ∧ s' = { s with symbols := s.symbols.modifyFunction name f } := by
  unfold modifyPrototype
  simp only [yields_bind, yields_prototype, yields_modify]
  constructor
  · rintro ⟨p, _, ⟨hp, rfl⟩, rfl⟩
    exact ⟨by simp [hp], rfl⟩
  · rintro ⟨hp, rfl⟩
    obtain ⟨p, hp⟩ := Option.isSome_iff_exists.mp hp
    exact ⟨p, s, ⟨hp, rfl⟩, rfl⟩

/-- An overload may be repeated with the qualifiers and the return type it had. -/
def Repeats (known : Signature) (returnType : Ty) (parameters : List Var) : Prop :=
  (∀ pair ∈ known.parameters.zip parameters, pair.1.value.sameQualifiers pair.2.value)
    ∧ known.returnType = returnType

/-- A repeated signature passes if it agrees with the known one. -/
theorem yields_checkRepeated {known : Signature}
    {returnType : Ty} {parameters : List Var} :
    Yields (checkRepeated cx node name known returnType parameters) s u s'
      ↔ Repeats known returnType parameters ∧ s' = s := by
  unfold checkRepeated Repeats
  split
  next a b hfind =>
    have hbad := List.find?_some hfind
    have hmem := List.mem_of_find?_eq_some hfind
    constructor
    · intro h
      exact absurd h yields_fail
    · rintro ⟨⟨hall, -⟩, -⟩
      have hgood := hall (a, b) hmem
      simp [hgood] at hbad
  next hfind =>
    have hall : ∀ pair ∈ known.parameters.zip parameters,
        pair.1.value.sameQualifiers pair.2.value := by
      intro pair hmem
      simpa using List.find?_eq_none.mp hfind pair hmem
    by_cases hty : known.returnType = returnType
    · simp only [if_pos hty, yields_pure]
      exact ⟨fun h => ⟨⟨hall, hty⟩, h.2⟩, fun h => ⟨trivial, h.2⟩⟩
    · simp only [if_neg hty]
      exact ⟨fun h => absurd h yields_fail, fun h => absurd h.1.2 hty⟩

/-- What registering a signature yields, new or repeated. -/
theorem yields_register {slot : Nat} {returnType : Ty}
    {parameters : List Var} {index : Nat} :
    Yields (register cx node slot name returnType parameters) s index s'
      ↔ ∃ p, s.symbols.findFunction? name = some p
        ∧ ((p.matching? (parameters.map (·.ty)) = some index
            ∧ Repeats ((s.signatures slot)[index]?.getD default) returnType parameters
            ∧ s' = s.setParameters slot name index parameters)
          ∨ (p.matching? (parameters.map (·.ty)) = none
            ∧ index = (s.signatures slot).length
            ∧ s' = (s.addOverload slot name returnType).setParameters slot name index
                parameters)) := by
  have found : ∀ f : Prototype → Prototype, (s.symbols.findFunction? name).isSome →
      ((s.symbols.modifyFunction name f).findFunction? name).isSome := by
    intro f h
    rw [SymbolTable.findFunction?_modifyFunction, if_pos rfl, Option.isSome_map]
    exact h
  unfold register signatureIndex modifySignature
  simp only [yields_bind, yields_prototype, yields_signatures, yields_modifyPrototype,
    yields_modify, yields_pure]
  constructor
  · rintro ⟨i, s1, ⟨p, _, ⟨hp, rfl⟩, known, _, ⟨rfl, rfl⟩, hindex⟩, -, _, ⟨-, rfl⟩, -, _, rfl, rfl,
      rfl⟩
    refine ⟨p, hp, ?_⟩
    cases hm : p.matching? (parameters.map (·.ty)) with
    | some i =>
      simp only [hm, yields_bind, yields_checkRepeated, yields_pure] at hindex
      obtain ⟨-, _, ⟨hrep, rfl⟩, rfl, rfl⟩ := hindex
      exact .inl ⟨rfl, hrep, rfl⟩
    | none =>
      simp only [hm, yields_bind, yields_modify, yields_modifyPrototype, yields_pure] at hindex
      obtain ⟨-, _, rfl, -, _, ⟨-, rfl⟩, rfl, rfl⟩ := hindex
      exact .inr ⟨rfl, rfl, by simp [ReadState.addOverload, ReadState.setParameters,
        ReadState.onFunction]⟩
  · rintro ⟨p, hp, ⟨hm, hrep, rfl⟩ | ⟨hm, rfl, rfl⟩⟩
    · refine ⟨index, s, ⟨p, s, ⟨hp, rfl⟩, _, s, ⟨rfl, rfl⟩, ?_⟩, (), _, ⟨by simp [hp], rfl⟩, (), _,
        rfl, rfl, rfl⟩
      simp only [hm, yields_bind, yields_checkRepeated, yields_pure]
      exact ⟨(), s, ⟨hrep, rfl⟩, trivial, rfl⟩
    · refine ⟨_, s.addOverload slot name returnType, ⟨p, s, ⟨hp, rfl⟩, _, s, ⟨rfl, rfl⟩, ?_⟩, (), _,
        ⟨found _ (by simp [hp]), rfl⟩, (), _, rfl, rfl, rfl⟩
      simp only [hm, yields_bind, yields_modify, yields_modifyPrototype, yields_pure]
      exact ⟨(), _, rfl, (), _, ⟨by simp [hp], rfl⟩, trivial, rfl⟩

theorem yields_define {slot index : Nat}
    {body : List Instruction} :
    Yields (define cx node slot index name body) s u s'
      ↔ (s.symbols.findFunction? name).isSome ∧ s' = s.complete slot name index body := by
  unfold define modifySignature
  simp only [yields_bind, yields_modifyPrototype, yields_modify]
  constructor
  · rintro ⟨-, _, ⟨hp, rfl⟩, rfl⟩
    exact ⟨hp, rfl⟩
  · rintro ⟨hp, rfl⟩
    exact ⟨(), _, ⟨hp, rfl⟩, rfl⟩

end ReadM

end Shading
