/-
  Shading.Proofs.Read.Overlay — the variables that reading leaves bound.

  Declarations outside of functions are bound in the innermost scope, one over the other, as they
  are read; declarations in functions are gone with the scope of their signature.  If reading fails,
  those before the node where it stopped are left.
-/
import Mathlib.Data.List.Forall2
import Shading.Proofs.Jump.Reach
import Shading.Proofs.Read.InStep
import Shading.Proofs.Scan.Lockstep

namespace Shading

open List ReadM

/-! ## §1. Overlays -/

/-- The declarations that a node consists of, outside of functions, in the order of the text. -/
def Node.globals (node : Node) : List Node := node.outer.filter (·.isDeclaration)

/-- The same for a block. -/
def Node.globalsIn (nodes : List Node) : List Node := (Node.outerIn nodes).filter (·.isDeclaration)

theorem Node.globalsIn_cons (node : Node) (rest : List Node) :
    Node.globalsIn (node :: rest) = node.globals ++ Node.globalsIn rest := by
  rw [Node.globalsIn, Node.outerIn, filter_append]
  rfl

/-- What a state has of a unit. -/
def ReadState.unit (s : ReadState) : CompilationUnit := ⟨s.storage, s.symbols⟩

/-- The second unit is the first with the nodes declared: each makes a variable, as it says and with
    a number of its own, and binds it over what the innermost scope had.  Types stay as they are. -/
structure Overlays (nodes : List Node) (vs : List Var) (u u' : CompilationUnit) : Prop where
  made : List.Forall₂ (fun node v => readVariable ⟨u.symbols, none⟩ node = .ok v.value) nodes vs
  ordered : (vs.map (·.id)).Pairwise (· < ·)
  fresh : ∀ v ∈ vs, u.storage.vars.issued ≤ v.id ∧ v.id < u'.storage.vars.issued
  issued : u.storage.vars.issued ≤ u'.storage.vars.issued
  types : u'.symbols.typeScopes = u.symbols.typeScopes
  binds : u'.symbols.varScopes = u.symbols.varScopes.modifyHead (·.bindAll vs)

namespace Overlays

variable {nodes more : List Node} {vs ws : List Var} {u u1 u' : CompilationUnit}

theorem nil (hissued : u.storage.vars.issued ≤ u'.storage.vars.issued)
    (htypes : u'.symbols.typeScopes = u.symbols.typeScopes)
    (hvars : u'.symbols.varScopes = u.symbols.varScopes) : Overlays [] [] u u' where
  made := .nil
  ordered := .nil
  fresh := fun _ hv => absurd hv not_mem_nil
  issued := hissued
  types := htypes
  binds := by
    rw [hvars]
    cases u.symbols.varScopes <;> rfl

theorem refl (u : CompilationUnit) : Overlays [] [] u u := nil (Nat.le_refl _) rfl rfl

/-- What is laid over in two parts is laid over in one. -/
theorem append (h1 : Overlays nodes vs u u1) (h2 : Overlays more ws u1 u') :
    Overlays (nodes ++ more) (vs ++ ws) u u' where
  made := by
    refine rel_append h1.made (h2.made.imp fun node v hv => ?_)
    exact readVariable_congr h1.types.symm hv
  ordered := by
    rw [map_append, pairwise_append]
    refine ⟨h1.ordered, h2.ordered, ?_⟩
    intro a ha b hb
    obtain ⟨v, hv, rfl⟩ := mem_map.mp ha
    obtain ⟨w, hw, rfl⟩ := mem_map.mp hb
    exact Nat.lt_of_lt_of_le (h1.fresh v hv).2 (h2.fresh w hw).1
  fresh := by
    intro v hv
    rcases mem_append.mp hv with hv | hv
    · exact ⟨(h1.fresh v hv).1, Nat.lt_of_lt_of_le (h1.fresh v hv).2 h2.issued⟩
    · exact ⟨Nat.le_trans h1.issued (h2.fresh v hv).1, (h2.fresh v hv).2⟩
  issued := Nat.le_trans h1.issued h2.issued
  types := h2.types.trans h1.types
  binds := by
    rw [h2.binds, h1.binds, modifyHead_modifyHead]
    congr 1
    funext b
    exact (Bindings.bindAll_append vs ws b).symm

theorem declare {cx : Context} {s : ReadState} {node : Node} {v : Variable}
    (h : readVariable (s.env cx) node = .ok v) :
    Overlays [node] [s.nextVar v] s.unit (s.declare v).unit where
  made := by
    refine .cons ?_ .nil
    exact readVariable_congr (show s.symbols.typeScopes = (s.env cx).symbols.typeScopes from rfl) h
  ordered := pairwise_singleton _ _
  fresh := forall_mem_singleton.mpr ⟨Nat.le_refl _, Nat.lt_succ_self _⟩
  issued := Nat.le_succ _
  types := typeScopes_declare h
  binds := by
    obtain ⟨-, ty, -, t, -, ht, -⟩ := readVariable_eq_ok.mp h
    exact ReadState.Binds.declare (scopes_ne_nil_of_readType ht)

theorem length_eq (h : Overlays nodes vs u u') :
    u'.symbols.scopes.length = u.symbols.scopes.length := by
  simpa [SymbolTable.typeScopes] using congrArg List.length h.types

theorem ne_nil (h : Overlays nodes vs u u') (hopen : u.symbols.scopes ≠ []) :
    u'.symbols.scopes ≠ [] := by
  rw [← length_pos_iff, h.length_eq, length_pos_iff]
  exact hopen

end Overlays

/-! ## §2. Functions leave no variable -/

/-- Reading binds variables in the innermost scope only. -/
theorem outerVars_frame (d : Nat) :
    Frame d fun s s' => s'.symbols.varScopes.tail = s.symbols.varScopes.tail where
  refl := fun _ => rfl
  trans := fun _ _ _ h1 h2 => h2.trans h1
  takeLoop := fun _ => rfl
  declare := by
    intro s v hopen
    show (s.symbols.addVariable _).2.varScopes.tail = _
    rw [SymbolTable.varScopes_addVariable _ _ hopen]
    cases s.symbols.varScopes <;> rfl
  slot := fun s cx name _ hopen => by rw [varScopes_slot s cx name hopen]
  registers := fun _ _ _ _ _ _ _ _ _ h => by rw [varScopes_registers h]
  complete := by
    intro s slot name index body _ _
    rw [ReadState.complete, ReadState.onFunction, SymbolTable.varScopes_modifyFunction]
  scope := by
    intro s s' _ h
    show s'.symbols.pop.varScopes.tail = _
    rw [SymbolTable.varScopes_pop, h]
    rfl

theorem inner_frame (d : Nat) :
    Frame d fun s s' => s'.symbols.varScopes.tail = s.symbols.varScopes.tail
      ∧ s'.symbols.typeScopes = s.symbols.typeScopes
      ∧ s.storage.vars.issued ≤ s'.storage.vars.issued :=
  (outerVars_frame d).and ((typeScopes_frame d).and (issued_frame d))

/-- **Functions leave no variable**: theirs are bound in scopes that are closed again. -/
theorem overlays_seals (d : Nat) :
    Seals d (fun s s' => s'.symbols.varScopes.tail = s.symbols.varScopes.tail
        ∧ s'.symbols.typeScopes = s.symbols.typeScopes
        ∧ s.storage.vars.issued ≤ s'.storage.vars.issued)
      fun s s' => Overlays [] [] s.unit s'.unit where
  refl := fun s => .refl s.unit
  trans := fun _ _ _ h1 h2 => h1.append h2
  slot := fun s cx name hd hopen => .nil ((issued_frame d).slot s cx name hd hopen)
    (typeScopes_slot s cx name hopen) (varScopes_slot s cx name hopen)
  scope := by
    intro s s' hopen h
    have hclosed := (inner_frame d).scope s s' hopen h
    refine .nil hclosed.2.2 hclosed.2.1 ?_
    show s'.symbols.pop.varScopes = s.symbols.varScopes
    rw [SymbolTable.varScopes_pop, h.1]
    rfl
  inner := by
    intro s s' h
    refine ⟨?_, h.types, h.issued⟩
    have hbinds : s'.symbols.varScopes = _ := h.binds
    rw [hbinds]
    cases hvars : s.unit.symbols.varScopes <;> exact (congrArg List.tail hvars).symm

/-! ## §3. Where reading stops -/

/-- The reader comes to the first block of the node: it is a branch whose condition can be read, or
    a loop whose controls can. -/
inductive Enters (cx : Context) (s : ReadState) : Node → Prop
  | branch {condition elseNode : Node} {thenNodes : List Node} {value : Rvalue}
      (read : readRvalue (s.env cx) condition = .ok value) :
      Enters cx s (.list [.symbol "if", condition, .list thenNodes, elseNode])
  | loop {counter start stop increment : Node} {nodes : List Node} {controls : Controls}
      (read : readControls (s.env cx)
        (.list [.symbol "loop", counter, start, stop, increment, .list nodes]) counter start stop
        increment = .ok controls) :
      Enters cx s (.list [.symbol "loop", counter, start, stop, increment, .list nodes])

theorem Enters.shape {cx : Context} {s : ReadState} {node : Node} (h : Enters cx s node) :
    (∃ condition thenNodes elseNode value,
        node = .list [.symbol "if", condition, .list thenNodes, elseNode]
          ∧ readRvalue (s.env cx) condition = .ok value)
      ∨ ∃ counter start stop increment nodes controls,
        node = .list [.symbol "loop", counter, start, stop, increment, .list nodes]
          ∧ readControls (s.env cx) node counter start stop increment = .ok controls := by
  cases h with
  | branch read => exact .inl ⟨_, _, _, _, rfl, read⟩
  | loop read => exact .inr ⟨_, _, _, _, _, _, rfl, read⟩

/-- Reading the nodes in the state stops with the error: it comes to a node outside of functions
    that cannot be read, and that is not because of a node in one of its blocks.  Next to the state
    stand the declarations outside of functions that come before that node. -/
inductive Stops : Context → List Node → ReadState → List Node → ReadError → Prop
  | here {cx : Context} {node : Node} {rest : List Node} {s : ReadState} {e : ReadError}
      (fails : Fails (readInstruction cx node) s e) (outside : ¬ Enters cx s node) :
      Stops cx (node :: rest) s [] e
  | later {cx : Context} {node : Node} {rest before : List Node} {i : Option Instruction}
      {s s1 : ReadState} {e : ReadError} (first : Yields (readInstruction cx node) s i s1)
      (others : Stops cx rest s1 before e) : Stops cx (node :: rest) s (node.globals ++ before) e
  | thenBody {cx : Context} {condition elseNode : Node} {thenNodes rest before : List Node}
      {value : Rvalue} {s : ReadState} {e : ReadError}
      (read : readRvalue (s.env cx) condition = .ok value) (inner : Stops cx thenNodes s before e) :
      Stops cx (.list [.symbol "if", condition, .list thenNodes, elseNode] :: rest) s before e
  | elseBody {cx : Context} {condition : Node} {thenNodes elseNodes rest before : List Node}
      {value : Rvalue} {thenBody : List Instruction} {s s1 : ReadState} {e : ReadError}
      (read : readRvalue (s.env cx) condition = .ok value)
      (first : Yields (readInstructions cx thenNodes) s thenBody s1)
      (inner : Stops cx elseNodes s1 before e) :
      Stops cx (.list [.symbol "if", condition, .list thenNodes, .list elseNodes] :: rest) s
        (Node.globalsIn thenNodes ++ before) e
  /-- The second block is none. -/
  | elseAtom {cx : Context} {condition elseNode : Node} {thenNodes rest : List Node} {value : Rvalue}
      {thenBody : List Instruction} {s s1 : ReadState} {e : ReadError}
      (read : readRvalue (s.env cx) condition = .ok value)
      (first : Yields (readInstructions cx thenNodes) s thenBody s1)
      (atom : elseNode.list? = none) (fails : Fails (readBlock cx elseNode) s1 e) :
      Stops cx (.list [.symbol "if", condition, .list thenNodes, elseNode] :: rest) s
        (Node.globalsIn thenNodes) e
  | loopBody {cx : Context} {counter start stop increment : Node} {nodes rest before : List Node}
      {controls : Controls} {s : ReadState} {e : ReadError}
      (read : readControls (s.env cx)
        (.list [.symbol "loop", counter, start, stop, increment, .list nodes]) counter start stop
        increment = .ok controls)
      (inner : Stops { cx with enclosing := some s.nextLoop } nodes s.takeLoop before e) :
      Stops cx (.list [.symbol "loop", counter, start, stop, increment, .list nodes] :: rest) s
        before e

/-! ## §4. What is bound where reading stops -/

section

variable {α β : Type} {cx : Context} {node : Node} {s : ReadState}

/-- From the state, the computation overlays all of the nodes if it succeeds, and those before the
    place where it stops if it fails. -/
structure ReadM.Meets (x : ReadM α) (s : ReadState) (all : List Node)
    (stops : List Node → ReadError → Prop) : Prop where
  read : ∀ a s', Yields x s a s' → ∃ vs, Overlays all vs s.unit s'.unit
  stopped : ∀ e s', x.run.run s = (.error e, s') →
    ∃ before vs, stops before e ∧ Overlays before vs s.unit s'.unit

/-- From the state, reading the node overlays its declarations, or stops. -/
abbrev MeetsFrom (cx : Context) (s : ReadState) (node : Node) : Prop :=
  (readInstruction cx node).Meets s node.globals
    fun before e => ∀ rest, Stops cx (node :: rest) s before e

/-- Wherever a scope is open, reading the node overlays its declarations, or stops. -/
def MeetsNode (cx : Context) (node : Node) : Prop :=
  ∀ s : ReadState, s.Held cx.globalDepth → s.symbols.scopes ≠ [] → MeetsFrom cx s node

/-- The same for a block. -/
def MeetsBlock (cx : Context) (nodes : List Node) : Prop :=
  ∀ s : ReadState, s.Held cx.globalDepth → s.symbols.scopes ≠ [] →
    (readInstructions cx nodes).Meets s (Node.globalsIn nodes) (Stops cx nodes s)

/-- An instruction that leaves the unit alone meets nothing. -/
theorem meets_sealed
    (hsealed : Overlays [] [] s.unit ((readInstruction cx node).run.run s).2.unit)
    (hnone : node.globals = []) (houtside : ¬ Enters cx s node) : MeetsFrom cx s node where
  read := by
    intro i s' h
    rw [h] at hsealed
    rw [hnone]
    exact ⟨[], hsealed⟩
  stopped := by
    intro e s' h
    rw [h] at hsealed
    exact ⟨[], [], fun _ => .here (congrArg Prod.fst h) houtside, hsealed⟩

theorem meets_simple {f : Env → Except ReadError α} {g : α → Option Instruction}
    (hread : readInstruction cx node = (do let a ← reading cx f; pure (g a)))
    (hnone : node.globals = []) (houtside : ¬ Enters cx s node) : MeetsFrom cx s node := by
  refine meets_sealed ?_ hnone houtside
  have hsame : (reading cx f).Ends (· = ·) (fun _ => True) s fun _ _ => True :=
    (ends_reading rfl fun _ _ => trivial).mono (fun _ h => h) fun _ _ _ => trivial
  rw [hread, (alike_bind_pure (reading cx f) g s).1, ← hsame.related]
  exact .refl s.unit

/-- A block is refused as a whole, or reading stops in it. -/
theorem readBlock_eq_error {e : ReadError} {s' : ReadState}
    (h : (readBlock cx node).run.run s = (.error e, s')) :
    (node.list? = none ∧ s' = s)
      ∨ ∃ nodes, node = .list nodes ∧ (readInstructions cx nodes).run.run s = (.error e, s') := by
  cases node with
  | list nodes => exact .inr ⟨nodes, rfl, h⟩
  | symbol | int | float =>
    cases h
    exact .inl ⟨rfl, rfl⟩

theorem enters_branch {condition thenNode elseNode : Node}
    (h : Enters cx s (.list [.symbol "if", condition, thenNode, elseNode])) :
    ∃ value, (∃ nodes, thenNode = .list nodes) ∧ readRvalue (s.env cx) condition = .ok value := by
  obtain ⟨_, nodes, _, value, heq, hread⟩ | ⟨_, _, _, _, _, _, heq, -⟩ := h.shape
  · cases heq
    exact ⟨value, ⟨nodes, rfl⟩, hread⟩
  · simp at heq

theorem enters_loop {counter start stop increment body : Node}
    (h : Enters cx s (.list [.symbol "loop", counter, start, stop, increment, body])) :
    ∃ controls, (∃ nodes, body = .list nodes)
      ∧ readControls (s.env cx) (.list [.symbol "loop", counter, start, stop, increment, body])
        counter start stop increment = .ok controls := by
  obtain ⟨_, _, _, _, heq, -⟩ | ⟨_, _, _, _, nodes, controls, heq, hread⟩ := h.shape
  · simp at heq
  · cases heq
    exact ⟨controls, ⟨nodes, rfl⟩, hread⟩

theorem not_enters_other
    (hbranch : ∀ condition thenNode elseNode,
      node = .list [.symbol "if", condition, thenNode, elseNode] → False)
    (hloop : ∀ counter start stop increment body,
      node = .list [.symbol "loop", counter, start, stop, increment, body] → False) :
    ¬ Enters cx s node := by
  intro h
  obtain ⟨_, _, _, _, heq, -⟩ | ⟨_, _, _, _, _, _, heq, -⟩ := h.shape
  · exact hbranch _ _ _ heq
  · exact hloop _ _ _ _ _ heq

theorem not_enters_tag {tag : String} {tail : List Node} (htag : tag ∉ ["if", "loop"]) :
    ¬ Enters cx s (.list (.symbol tag :: tail)) :=
  not_enters_other (by rintro _ _ _ ⟨⟩; simp at htag) (by rintro _ _ _ _ _ ⟨⟩; simp at htag)

theorem globals_other (hdeclare : ∀ tail, node = .list (.symbol "declare" :: tail) → False)
    (hbranch : ∀ condition thenNode elseNode,
      node = .list [.symbol "if", condition, thenNode, elseNode] → False)
    (hloop : ∀ counter start stop increment body,
      node = .list [.symbol "loop", counter, start, stop, increment, body] → False) :
    node.globals = [] := by
  have houter : node.outer = [node] := by
    unfold Node.outer
    split
    · exact absurd rfl (hbranch _ _ _)
    · exact absurd rfl (hloop _ _ _ _ _)
    · rfl
  have hother : node.isDeclaration = false := by
    unfold Node.isDeclaration
    split
    · exact absurd rfl (hdeclare _)
    · rfl
  simp [Node.globals, houter, hother]

theorem overlays_takeLoop {nodes : List Node} {vs : List Var} {u : CompilationUnit}
    (h : Overlays nodes vs s.takeLoop.unit u) : Overlays nodes vs s.unit u :=
  ⟨h.made, h.ordered, h.fresh, h.issued, h.types, h.binds⟩

/-- A branch meets what its two blocks meet. -/
theorem meets_branch {condition thenNode elseNode : Node}
    (hblocks : ∀ nodes, thenNode = .list nodes ∨ elseNode = .list nodes → MeetsBlock cx nodes)
    (hs : s.Held cx.globalDepth) (hopen : s.symbols.scopes ≠ []) :
    MeetsFrom cx s (.list [.symbol "if", condition, thenNode, elseNode]) where
  read := by
    intro i s' h
    simp only [readInstruction, yields_bind, yields_reading, yields_readBlock, yields_pure] at h
    obtain ⟨c, _, ⟨-, rfl⟩, is, s1, ⟨thenNodes, rfl, h1⟩, js, s2, ⟨elseNodes, rfl, h2⟩, -, rfl⟩ := h
    obtain ⟨vs, o1⟩ := (hblocks thenNodes (.inl rfl) _ hs hopen).read is s1 h1
    obtain ⟨ws, o2⟩ :=
      (hblocks elseNodes (.inr rfl) s1 (hs.readInstructions h1) (o1.ne_nil hopen)).read js _ h2
    refine ⟨vs ++ ws, ?_⟩
    simp only [Node.globals, Node.outer, filter_append]
    exact o1.append o2
  stopped := by
    intro e s' h
    have hfails : Fails (readInstruction cx (.list [.symbol "if", condition, thenNode, elseNode])) s
        e := congrArg Prod.fst h
    rw [readInstruction, run_bind_eq_error] at h
    rcases h with h | ⟨c, _, hc, h⟩
    · -- the condition cannot be read
      obtain ⟨herror, rfl⟩ := run_reading_eq_error h
      refine ⟨[], [], fun _ => .here hfails fun henters => ?_, .refl _⟩
      obtain ⟨value, -, hread⟩ := enters_branch henters
      rw [hread] at herror
      cases herror
    obtain ⟨hc, rfl⟩ := yields_reading.mp hc
    rw [run_bind_eq_error] at h
    rcases h with h | ⟨is, s1, h1, h⟩
    · rcases readBlock_eq_error h with ⟨hatom, rfl⟩ | ⟨thenNodes, rfl, h⟩
      · refine ⟨[], [], fun _ => .here hfails fun henters => ?_, .refl _⟩
        obtain ⟨value, ⟨thenNodes, rfl⟩, -⟩ := enters_branch henters
        cases hatom
      · obtain ⟨before, vs, hstops, o⟩ := (hblocks thenNodes (.inl rfl) _ hs hopen).stopped e s' h
        exact ⟨before, vs, fun _ => .thenBody hc hstops, o⟩
    obtain ⟨thenNodes, rfl, h1⟩ := yields_readBlock.mp h1
    obtain ⟨vs, o1⟩ := (hblocks thenNodes (.inl rfl) _ hs hopen).read is s1 h1
    rw [run_bind_eq_error] at h
    rcases h with h | ⟨js, s2, -, h⟩
    · have hblock : Fails (readBlock cx elseNode) s1 e := congrArg Prod.fst h
      rcases readBlock_eq_error h with ⟨hatom, rfl⟩ | ⟨elseNodes, rfl, h⟩
      · exact ⟨_, vs, fun _ => .elseAtom hc h1 hatom hblock, o1⟩
      · obtain ⟨before, ws, hstops, o2⟩ :=
          (hblocks elseNodes (.inr rfl) s1 (hs.readInstructions h1) (o1.ne_nil hopen)).stopped e s' h
        exact ⟨_, vs ++ ws, fun _ => .elseBody hc h1 hstops, o1.append o2⟩
    · cases h

/-- A loop meets what its body meets. -/
theorem meets_loop {counter start stop increment body : Node}
    (hblock : ∀ nodes, body = .list nodes →
      (readInstructions { cx with enclosing := some s.nextLoop } nodes).Meets s.takeLoop
        (Node.globalsIn nodes) (Stops { cx with enclosing := some s.nextLoop } nodes s.takeLoop)) :
    MeetsFrom cx s (.list [.symbol "loop", counter, start, stop, increment, body]) where
  read := by
    intro i s' h
    simp only [readInstruction, yields_bind, yields_reading, yields_newLoop, yields_readBlock,
      yields_pure] at h
    obtain ⟨controls, _, ⟨-, rfl⟩, _, _, ⟨rfl, rfl⟩, is, s1, ⟨nodes, rfl, h1⟩, -, rfl⟩ := h
    obtain ⟨vs, o⟩ := (hblock nodes rfl).read is _ h1
    refine ⟨vs, ?_⟩
    simp only [Node.globals, Node.outer]
    exact overlays_takeLoop o
  stopped := by
    intro e s' h
    have hfails : Fails (readInstruction cx
        (.list [.symbol "loop", counter, start, stop, increment, body])) s e := congrArg Prod.fst h
    rw [readInstruction, run_bind_eq_error] at h
    rcases h with h | ⟨controls, _, hc, h⟩
    · -- the controls cannot be read
      obtain ⟨herror, rfl⟩ := run_reading_eq_error h
      refine ⟨[], [], fun _ => .here hfails fun henters => ?_, .refl _⟩
      obtain ⟨value, -, hread⟩ := enters_loop henters
      rw [hread] at herror
      cases herror
    obtain ⟨hc, rfl⟩ := yields_reading.mp hc
    rw [run_bind_eq_error] at h
    rcases h with h | ⟨_, _, hloop, h⟩
    · cases h
    obtain ⟨rfl, rfl⟩ := yields_newLoop.mp hloop
    rw [run_bind_eq_error] at h
    rcases h with h | ⟨is, s1, -, h⟩
    · rcases readBlock_eq_error h with ⟨hatom, rfl⟩ | ⟨nodes, rfl, h⟩
      · refine ⟨[], [], fun _ => .here hfails fun henters => ?_, overlays_takeLoop (.refl _)⟩
        obtain ⟨value, ⟨nodes, rfl⟩, -⟩ := enters_loop henters
        cases hatom
      · obtain ⟨before, vs, hstops, o⟩ := (hblock nodes rfl).stopped e s' h
        exact ⟨before, vs, fun _ => .loopBody hc hstops, overlays_takeLoop o⟩
    · cases h

theorem meets_jump (mode : JumpMode) : MeetsFrom cx s (.symbol mode.name) := by
  have hread : readInstruction cx (.symbol mode.name) = reading cx fun env =>
      some <$> env.check (.symbol mode.name) (Instruction.mkJump mode cx.enclosing) := by
    cases mode with
    | «break» =>
      show readInstruction cx (.symbol "break") = _
      rw [readInstruction]
      rfl
    | «continue» =>
      show readInstruction cx (.symbol "continue") = _
      rw [readInstruction]
      rfl
  exact meets_simple (hread.trans (bind_pure _).symm) rfl (not_enters_other (by simp) (by simp))

theorem meets_declare (tail : List Node) : MeetsFrom cx s (.list (.symbol "declare" :: tail)) where
  read := by
    intro i s' h
    simp only [readInstruction, yields_bind, yields_reading, yields_declare, yields_pure] at h
    obtain ⟨v, _, ⟨hv, rfl⟩, _, _, ⟨rfl, rfl⟩, -, rfl⟩ := h
    have hself : (Node.list (.symbol "declare" :: tail)).globals
        = [.list (.symbol "declare" :: tail)] := by
      simp [Node.globals, Node.outer, Node.isDeclaration]
    rw [hself]
    exact ⟨_, .declare hv⟩
  stopped := by
    intro e s' h
    have hfails : Fails (readInstruction cx (.list (.symbol "declare" :: tail))) s e :=
      congrArg Prod.fst h
    rw [readInstruction, run_bind_eq_error] at h
    rcases h with h | ⟨v, s1, -, h⟩
    · obtain ⟨-, rfl⟩ := run_reading_eq_error h
      exact ⟨[], [], fun _ => .here hfails (not_enters_tag (by decide)), .refl _⟩
    · cases h

/-- A block meets its instructions one by one. -/
theorem meets_cons {rest : List Node} (hfirst : MeetsNode cx node) (hothers : MeetsBlock cx rest)
    (hs : s.Held cx.globalDepth) (hopen : s.symbols.scopes ≠ []) :
    (readInstructions cx (node :: rest)).Meets s (Node.globalsIn (node :: rest))
      (Stops cx (node :: rest) s) where
  read := by
    intro is s' h
    simp only [readInstructions, yields_bind, yields_pure] at h
    obtain ⟨i, s1, h1, js, _, h2, -, rfl⟩ := h
    obtain ⟨vs, o1⟩ := (hfirst s hs hopen).read i s1 h1
    obtain ⟨ws, o2⟩ := (hothers s1 (hs.readInstruction h1) (o1.ne_nil hopen)).read js _ h2
    rw [Node.globalsIn_cons]
    exact ⟨vs ++ ws, o1.append o2⟩
  stopped := by
    intro e s' h
    rw [readInstructions, run_bind_eq_error] at h
    rcases h with h | ⟨i, s1, h1, h⟩
    · obtain ⟨before, vs, hstops, o⟩ := (hfirst s hs hopen).stopped e s' h
      exact ⟨before, vs, hstops rest, o⟩
    · obtain ⟨vs, o1⟩ := (hfirst s hs hopen).read i s1 h1
      rw [run_bind_eq_error] at h
      rcases h with h | ⟨js, s2, -, h⟩
      · obtain ⟨before, ws, hstops, o2⟩ := (hothers s1 (hs.readInstruction h1) (o1.ne_nil hopen)).stopped e s' h
        exact ⟨_, vs ++ ws, .later h1 hstops, o1.append o2⟩
      · cases h

/-- **Reading overlays the declarations outside of functions**: all of them if it succeeds, and
    those before the node where it stops if it fails. -/
theorem meets_readInstructions : ∀ cx nodes, MeetsBlock cx nodes := by
  suffices hread :
      (∀ cx node, MeetsNode cx node)
      ∧ (∀ cx node nodes, node = Node.list nodes → MeetsBlock cx nodes)
      ∧ (∀ cx nodes, MeetsBlock cx nodes)
      ∧ (Context → Bool → Node → List Node → True)
      ∧ (Context → Bool → Nat → String → List Node → True)
      ∧ (Context → Bool → Nat → String → Node → True) from hread.2.2.1
  apply readInstruction.mutual_induct MeetsNode
    (fun cx node => ∀ nodes, node = .list nodes → MeetsBlock cx nodes) MeetsBlock
    (fun _ _ _ _ => True) (fun _ _ _ _ _ => True) (fun _ _ _ _ _ => True)
  -- jumps
  · intro cx s hs hopen
    exact meets_jump .break
  · intro cx s hs hopen
    exact meets_jump .continue
  -- declarations
  · intro cx tail s hs hopen
    exact meets_declare tail
  -- functions
  · intro cx parts _ s hs hopen
    refine meets_sealed ?_ (by simp [Node.globals, Node.outer, Node.isDeclaration])
      (not_enters_tag (by decide))
    rw [readInstruction, (alike_bind_pure _ (fun _ => none) s).1]
    have hfunction := (mirrors_read (inner_frame _) (overlays_seals _) (S := fun _ => True)).2.2.2.1 cx
      false (.list (.symbol "function" :: parts)) parts rfl trivial
      (fun _ _ _ _ _ _ _ => trivial) s hs trivial
    exact hfunction.ends.related.related hopen
  -- assignments
  · intro cx tail s hs hopen
    exact meets_simple (by rw [readInstruction])
      (by simp [Node.globals, Node.outer, Node.isDeclaration]) (not_enters_tag (by decide))
  -- branches
  · intro cx condition thenBody elseBody ih1 ih2 s hs hopen
    refine meets_branch ?_ hs hopen
    rintro nodes (hnodes | hnodes)
    · exact ih1 nodes hnodes
    · exact ih2 nodes hnodes
  -- loops
  · intro cx counter start stop increment body ih s hs hopen
    exact meets_loop fun nodes hnodes => ih s.nextLoop nodes hnodes s.takeLoop
      (hs.of_symbols rfl rfl) hopen
  -- returns
  · intro cx tail s hs hopen
    exact meets_simple (by rw [readInstruction])
      (by simp [Node.globals, Node.outer, Node.isDeclaration]) (not_enters_tag (by decide))
  -- what is no instruction
  · intro cx node h1 h2 h3 h4 h5 h6 h7 h8 p hp s hs hopen
    refine meets_sealed ?_ (globals_other h3 h6 h7) (not_enters_other h6 h7)
    rw [readInstruction, hp]
    · exact .refl s.unit
    all_goals assumption
  -- rvalues
  · intro cx node h1 h2 h3 h4 h5 h6 h7 h8 hp s hs hopen
    have hread : readInstruction cx node = (do
        let r ← reading cx (readRvalue · node)
        pure (some (.rvalue r))) := by
      rw [readInstruction, hp]
      all_goals assumption
    exact meets_simple hread (globals_other h3 h6 h7) (not_enters_other h6 h7)
  -- blocks
  · intro cx nodes ih nodes' hnodes
    cases hnodes
    exact ih
  · intro cx node hnode nodes hnodes
    exact absurd hnodes (hnode nodes)
  -- signatures
  · intros
    trivial
  · intros
    trivial
  · intros
    trivial
  -- lists of instructions
  · intro cx s hs hopen
    refine ⟨?_, ?_⟩
    · intro is s' h
      obtain ⟨-, rfl⟩ := yields_pure.mp h
      exact ⟨[], .refl _⟩
    · intro e s' h
      cases h
  · intro cx node rest ih1 ih2 s hs hopen
    exact meets_cons ih1 ih2 hs hopen
  -- functions and their signatures
  all_goals
    intros
    trivial

end

end Shading
