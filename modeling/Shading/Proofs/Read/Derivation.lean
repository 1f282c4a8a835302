/-
  Shading.Proofs.Read.Derivation — reading as an inductive relation.

  `Reads cx reading s s'` says that a part of the text, together with what it gives, is read in the
  state `s` and leaves the state `s'`.  There is one rule for each form that is accepted, so a proof
  about everything the reader accepts is an induction with one case a form, and no failure in it.
-/
import Shading.Proofs.Read.Forms

namespace Shading

/-! ## §1. The parts of a signature -/

/-- Declarations are read and their variables made, from the first to the last. -/
inductive Declares (cx : Context) : List Node → List Var → ReadState → ReadState → Prop
  | nil (s : ReadState) : Declares cx [] [] s s
  | cons {node : Node} {rest : List Node} {v : Variable} {vs : List Var} {s s' : ReadState}
      (first : readVariable (s.env cx) node = .ok v) (others : Declares cx rest vs (s.declare v) s') :
      Declares cx (node :: rest) (s.nextVar v :: vs) s s'

/-- An overload of the function at a place is registered with its parameters. -/
inductive Registers (slot : Nat) (name : String) (returnType : Ty) (parameters : List Var) :
    Nat → ReadState → ReadState → Prop
  /-- It is known already, and repeated. -/
  | repeated {p : Prototype} {index : Nat} {s : ReadState}
      (bound : s.symbols.findFunction? name = some p)
      (known : p.matching? (parameters.map (·.ty)) = some index)
      (repeats : ReadM.Repeats ((s.signatures slot)[index]?.getD default) returnType parameters) :
      Registers slot name returnType parameters index s
        (s.setParameters slot name index parameters)
  /-- It is a new one. -/
  | added {p : Prototype} {s : ReadState}
      (bound : s.symbols.findFunction? name = some p)
      (unknown : p.matching? (parameters.map (·.ty)) = none) :
      Registers slot name returnType parameters (s.signatures slot).length s
        ((s.addOverload slot name returnType).setParameters slot name (s.signatures slot).length
          parameters)

/-- Is the overload at this place complete? -/
def ReadState.isDefined (s : ReadState) (slot index : Nat) : Bool :=
  ((s.signatures slot)[index]?.map (·.isDefined)).getD false

/-- What a signature says: the place of its overload, its return type and parameters, and its body,
    if it has one that is read. -/
structure Entry where
  index : Nat
  returnType : Ty
  parameters : List Var
  body : Option (List Instruction)

/-! ## §2. Derivations -/

/-- A part of the text and what it gives. -/
inductive Reading where
  | instruction (node : Node) (result : Option Instruction)
  | instructions (nodes : List Node) (result : List Instruction)
  /-- A function, by what follows its tag. -/
  | function (scan : Bool) (parts : List Node) (slot : Nat) (entries : List Entry)
  | signatures (scan : Bool) (slot : Nat) (name : String) (nodes : List Node) (entries : List Entry)
  | signature (scan : Bool) (slot : Nat) (name : String) (node : Node) (entry : Entry)

/-- The part of the text is read in the first state, gives what it gives and leaves the second
    state. -/
inductive Reads : Context → Reading → ReadState → ReadState → Prop
  | jump {cx : Context} {s : ReadState} (mode : JumpMode) {target : LoopId}
      (enclosing : cx.enclosing = some target) :
      Reads cx (.instruction (.symbol mode.name) (some (.jump mode target))) s s
  | declare {cx : Context} {s : ReadState} {node : Node} {v : Variable}
      (declaration : readVariable (s.env cx) node = .ok v) :
      Reads cx (.instruction node (some (.declare (s.nextVar v)))) s (s.declare v)
  | function {cx : Context} {s s' : ReadState} {parts : List Node} {slot : Nat}
      {entries : List Entry} (inner : Reads cx (.function false parts slot entries) s s') :
      Reads cx (.instruction (.list (.symbol "function" :: parts)) none) s s'
  | assign {cx : Context} {s : ReadState} {node : Node} {a : Assignment}
      (assignment : readAssignment (s.env cx) node = .ok a) :
      Reads cx (.instruction node (some (.assign a))) s s
  | branch {cx : Context} {s s1 s' : ReadState} {node : Node} {thenNodes elseNodes : List Node}
      {condition : Rvalue} {thenBody elseBody : List Instruction}
      (value : readRvalue (s.env cx) node = .ok condition)
      (first : Reads cx (.instructions thenNodes thenBody) s s1)
      (second : Reads cx (.instructions elseNodes elseBody) s1 s') :
      Reads cx (.instruction (.list [.symbol "if", node, .list thenNodes, .list elseNodes])
        (some (.branch condition thenBody elseBody))) s s'
  | loop {cx : Context} {s s' : ReadState} {whole counter start stop increment : Node}
      {nodes : List Node} {controls : Controls} {body : List Instruction}
      (header : readControls (s.env cx) whole counter start stop increment = .ok controls)
      (inner : Reads { cx with enclosing := some s.nextLoop } (.instructions nodes body)
        s.takeLoop s') :
      Reads cx
        (.instruction (.list [.symbol "loop", counter, start, stop, increment, .list nodes])
          (some (.loop s.nextLoop controls body))) s s'
  | ret {cx : Context} {s : ReadState} {parts : List Node} {value : Option Rvalue}
      (returned : readReturn (s.env cx) (.list (.symbol "return" :: parts)) = .ok value) :
      Reads cx (.instruction (.list (.symbol "return" :: parts)) (some (.ret value))) s s
  | rvalue {cx : Context} {s : ReadState} {node : Node} {r : Rvalue}
      (value : readRvalue (s.env cx) node = .ok r) :
      Reads cx (.instruction node (some (.rvalue r))) s s
  | nil {cx : Context} {s : ReadState} : Reads cx (.instructions [] []) s s
  | cons {cx : Context} {s s1 s' : ReadState} {node : Node} {rest : List Node}
      {i : Option Instruction} {is : List Instruction}
      (first : Reads cx (.instruction node i) s s1)
      (others : Reads cx (.instructions rest is) s1 s') :
      Reads cx (.instructions (node :: rest) (i.toList ++ is)) s s'
  | overloads {cx : Context} {s s1 s' : ReadState} {scan : Bool} {name : String} {first : Node}
      {rest : List Node} {slot : Nat} {entries : List Entry} (place : s.slot cx name = (slot, s1))
      (inner : Reads cx (.signatures scan slot name (first :: rest) entries) s1 s') :
      Reads cx (.function scan (.symbol name :: first :: rest) slot entries) s s'
  | noMore {cx : Context} {s : ReadState} {scan : Bool} {slot : Nat} {name : String} :
      Reads cx (.signatures scan slot name [] []) s s
  | more {cx : Context} {s s1 s' : ReadState} {scan : Bool} {slot : Nat} {name : String}
      {node : Node} {rest : List Node} {entry : Entry} {entries : List Entry}
      (first : Reads cx (.signature scan slot name node entry) s s1)
      (others : Reads cx (.signatures scan slot name rest entries) s1 s') :
      Reads cx (.signatures scan slot name (node :: rest) (entry :: entries)) s s'
  /-- A signature that leaves its overload as it is: one without a body, or any in a scan. -/
  | prototype {cx : Context} {s s1 s2 : ReadState} {scan : Bool} {slot : Nat} {name : String}
      {ty : Node} {declarations nodes : List Node} {returnType : Ty} {parameters : List Var}
      {index : Nat} (type : readType (s.env cx) ty = .ok returnType)
      (declares : Declares cx declarations parameters s.opened s1)
      (registers : Registers slot name returnType parameters index s1 s2)
      (silent : scan = true ∨ nodes = []) :
      Reads cx (.signature scan slot name
        (.list [.symbol "signature", ty, .list (.symbol "parameters" :: declarations), .list nodes])
        ⟨index, returnType, parameters, none⟩) s s2.closed
  /-- A signature that completes its overload. -/
  | definition {cx : Context} {s s1 s2 s3 : ReadState} {slot : Nat} {name : String} {ty : Node}
      {declarations nodes : List Node} {returnType : Ty} {parameters : List Var} {index : Nat}
      {body : List Instruction} (type : readType (s.env cx) ty = .ok returnType)
      (declares : Declares cx declarations parameters s.opened s1)
      (registers : Registers slot name returnType parameters index s1 s2)
      (nonempty : nodes ≠ []) (undefined : s2.isDefined slot index = false)
      (inner : Reads { cx with function := some name, enclosing := none }
        (.instructions nodes body) s2 s3)
      (bound : (s3.symbols.findFunction? name).isSome) :
      Reads cx (.signature false slot name
        (.list [.symbol "signature", ty, .list (.symbol "parameters" :: declarations), .list nodes])
        ⟨index, returnType, parameters, some body⟩) s (s3.complete slot name index body).closed

/-! ## §3. Runs are derivations -/

open ReadM

variable {cx : Context} {s s' : ReadState}

/-- Declarations are read one after the other. -/
theorem yields_readDeclarations {nodes : List Node} {vs : List Var} :
    Yields (readDeclarations cx nodes) s vs s' ↔ Declares cx nodes vs s s' := by
  constructor
  · intro h
    induction nodes generalizing s vs with
    | nil =>
      obtain ⟨rfl, rfl⟩ := yields_pure.mp h
      exact .nil _
    | cons node rest ih =>
      simp only [readDeclarations, yields_bind, yields_reading, yields_declare, yields_pure] at h
      obtain ⟨v, _, ⟨hv, rfl⟩, _, _, ⟨rfl, rfl⟩, vs', _, hrest, rfl, rfl⟩ := h
      exact .cons hv (ih hrest)
  · intro h
    induction h with
    | nil s => exact yields_pure.mpr ⟨rfl, rfl⟩
    | cons first others ih =>
      simp only [readDeclarations, yields_bind, yields_reading, yields_declare, yields_pure]
      exact ⟨_, _, ⟨first, rfl⟩, _, _, ⟨rfl, rfl⟩, _, _, ih, rfl, rfl⟩

variable {node : Node}

theorem yields_register_iff {slot : Nat} {name : String} {returnType : Ty} {parameters : List Var}
    {index : Nat} :
    Yields (register cx node slot name returnType parameters) s index s'
      ↔ Registers slot name returnType parameters index s s' := by
  rw [yields_register]
  constructor
  · rintro ⟨p, hp, ⟨hm, hrep, rfl⟩ | ⟨hm, rfl, rfl⟩⟩
    · exact .repeated hp hm hrep
    · exact .added hp hm
  · rintro (⟨hp, hm, hrep⟩ | ⟨hp, hm⟩)
    · exact ⟨_, hp, .inl ⟨hm, hrep, rfl⟩⟩
    · exact ⟨_, hp, .inr ⟨hm, rfl, rfl⟩⟩

theorem readSignatureHead_eq_ok {env : Env} {whole ty parameters body : Node} {returnType : Ty}
    {declarations : List Node} :
    readSignatureHead env whole ty parameters body = .ok (returnType, declarations)
      ↔ readType env ty = .ok returnType
        ∧ parameters = .list (.symbol "parameters" :: declarations)
        ∧ ∃ nodes, body = .list nodes := by
  unfold readSignatureHead
  simp only [except_bind_eq_ok, Env.require_eq_ok, Env.assert_eq_ok]
  constructor
  · rintro ⟨ty', hty, items, hitems, -, hbody, -, htag, h⟩
    cases h
    have hnodes : ∃ nodes, body = .list nodes := by
      cases body with
      | list nodes => exact ⟨nodes, rfl⟩
      | symbol | int | float => cases hbody
    refine ⟨hty, ?_, hnodes⟩
    obtain ⟨rest, rfl⟩ := Node.head?_eq_some.mp (by simpa using htag)
    cases hitems
    rfl
  · rintro ⟨hty, rfl, nodes, rfl⟩
    exact ⟨_, hty, _, rfl, (), rfl, (), rfl, rfl⟩

theorem yields_readBlock {is : List Instruction} :
    Yields (readBlock cx node) s is s'
      ↔ ∃ nodes, node = .list nodes ∧ Yields (readInstructions cx nodes) s is s' := by
  constructor
  · intro h
    match node, h with
    | .list nodes, h => exact ⟨nodes, rfl, h⟩
  · rintro ⟨nodes, rfl, h⟩
    exact h

theorem readInstruction_of_readRvalue {r : Rvalue} {env : Env} (h : readRvalue env node = .ok r) :
    readInstruction cx node = (do
      let r ← ReadM.reading cx (readRvalue · node)
      pure (some (.rvalue r))) := by
  obtain ⟨tag, rest, rfl, htag⟩ := readRvalue_tag h
  simp only [rvalueTags, List.mem_cons, List.not_mem_nil, or_false] at htag
  obtain rfl | rfl | rfl | rfl | rfl | rfl | rfl | rfl | rfl | rfl | rfl := htag
  all_goals simp [readInstruction, instructionProblem]

/-- A jump is only made inside of a loop. -/
theorem mkJump_eq_ok {mode : JumpMode} {enclosing : Option LoopId} {i : Instruction} :
    Instruction.mkJump mode enclosing = .ok i
      ↔ ∃ target, enclosing = some target ∧ i = .jump mode target := by
  unfold Instruction.mkJump
  split
  · next target =>
    constructor
    · intro h
      cases h
      exact ⟨target, rfl, rfl⟩
    · rintro ⟨_, h, rfl⟩
      cases h
      rfl
  · constructor
    · intro h
      cases h
    · rintro ⟨_, h, -⟩
      cases h

/-- The run of the reader that a reading stands for. -/
def Reading.Runs (cx : Context) (s s' : ReadState) : Reading → Prop
  | .instruction node i => Yields (readInstruction cx node) s i s'
  | .instructions nodes is => Yields (readInstructions cx nodes) s is s'
  | .function scan parts slot _ => ∀ whole, Yields (readFunction cx scan whole parts) s slot s'
  | .signatures scan slot name nodes _ => Yields (readSignatures cx scan slot name nodes) s () s'
  | .signature scan slot name node _ => Yields (readSignature cx scan slot name node) s () s'

/-- **A derivation runs**: what it derives is what reading yields. -/
theorem Reads.runs {reading : Reading} (h : Reads cx reading s s') : reading.Runs cx s s' := by
  induction h with
  | jump mode enclosing =>
    cases mode with
    | «break» =>
      show Yields (readInstruction _ (.symbol "break")) _ _ _
      simp only [readInstruction, yields_reading, except_map_eq_ok, Env.check_eq_ok]
      exact ⟨⟨_, by rw [enclosing]; rfl, rfl⟩, trivial⟩
    | «continue» =>
      show Yields (readInstruction _ (.symbol "continue")) _ _ _
      simp only [readInstruction, yields_reading, except_map_eq_ok, Env.check_eq_ok]
      exact ⟨⟨_, by rw [enclosing]; rfl, rfl⟩, trivial⟩
  | declare declaration =>
    obtain ⟨qualifiers, ty, name, t, rfl, -, -⟩ := readVariable_eq_ok.mp declaration
    simp only [Reading.Runs, readInstruction, yields_bind, yields_reading, yields_declare,
      yields_pure]
    exact ⟨_, _, ⟨declaration, rfl⟩, _, _, ⟨rfl, rfl⟩, rfl, rfl⟩
  | function inner ih =>
    simp only [Reading.Runs, readInstruction, yields_bind, yields_pure]
    exact ⟨_, _, ih _, trivial, rfl⟩
  | assign assignment =>
    obtain ⟨condition, mask, lhs, rhs, -, -, -, -, rfl, -⟩ := readAssignment_eq_ok.mp assignment
    simp only [Reading.Runs, readInstruction, yields_bind, yields_reading, yields_pure]
    exact ⟨_, _, ⟨assignment, rfl⟩, rfl, rfl⟩
  | branch value first second ih1 ih2 =>
    simp only [Reading.Runs, readInstruction, yields_bind, yields_reading, yields_readBlock,
      yields_pure]
    exact ⟨_, _, ⟨value, rfl⟩, _, _, ⟨_, rfl, ih1⟩, _, _, ⟨_, rfl, ih2⟩, rfl, rfl⟩
  | loop header inner ih =>
    simp only [Reading.Runs, readInstruction, yields_bind, yields_reading, yields_newLoop,
      yields_readBlock, yields_pure, readControls_eq_ok]
    exact ⟨_, _, ⟨readControls_eq_ok.mp header, rfl⟩, _, _, ⟨rfl, rfl⟩, _, _, ⟨_, rfl, ih⟩, rfl,
      rfl⟩
  | ret returned =>
    simp only [Reading.Runs, readInstruction, yields_bind, yields_reading, yields_pure]
    exact ⟨_, _, ⟨returned, rfl⟩, rfl, rfl⟩
  | rvalue value =>
    simp only [Reading.Runs, readInstruction_of_readRvalue value, yields_bind, yields_reading,
      yields_pure]
    exact ⟨_, _, ⟨value, rfl⟩, rfl, rfl⟩
  | nil | noMore => exact yields_pure.mpr ⟨rfl, rfl⟩
  | cons first others ih1 ih2 =>
    simp only [Reading.Runs, readInstructions, yields_bind, yields_pure]
    exact ⟨_, _, ih1, _, _, ih2, rfl, rfl⟩
  | overloads place inner ih =>
    intro whole
    simp only [Reading.Runs, readSignatures, yields_bind] at ih
    obtain ⟨u, _, h1, h2⟩ := ih
    simp only [readFunction, yields_bind, yields_functionSlot, yields_pure]
    exact ⟨_, _, place.symm, (), _, h1, (), _, h2, rfl, rfl⟩
  | more first others ih1 ih2 =>
    simp only [Reading.Runs, readSignatures, yields_bind]
    exact ⟨(), _, ih1, ih2⟩
  | @prototype _ _ _ _ scan _ _ _ _ nodes _ _ _ type declares registers silent =>
    have hskip : (scan || (Node.list nodes).isEmptyList) = true := by
      rcases silent with rfl | rfl
      · rfl
      · simp [Node.isEmptyList]
    simp only [Reading.Runs, readSignature, yields_bind, yields_reading, yields_inScope, hskip,
      if_true, yields_pure, yields_readDeclarations, yields_register_iff]
    exact ⟨_, _, ⟨readSignatureHead_eq_ok.mpr ⟨type, rfl, _, rfl⟩, rfl⟩, _,
      ⟨_, _, declares, _, _, registers, trivial, rfl⟩, rfl⟩
  | @definition _ _ _ _ _ slot _ _ _ nodes _ _ index _ type declares registers nonempty undefined
      inner bound ih =>
    have hbody : (false || (Node.list nodes).isEmptyList) = false := by
      cases nodes with
      | nil => exact absurd rfl nonempty
      | cons node rest => rfl
    simp only [Reading.Runs, readSignature, yields_bind, yields_reading, yields_inScope, hbody,
      yields_readDeclarations, yields_register_iff]
    refine ⟨_, _, ⟨readSignatureHead_eq_ok.mpr ⟨type, rfl, _, rfl⟩, rfl⟩, _,
      ⟨_, _, declares, _, _, registers, ?_⟩, rfl⟩
    unfold ReadState.isDefined at undefined
    simp only [Bool.false_eq_true, if_false, yields_bind, yields_signatures]
    refine ⟨_, _, ⟨rfl, rfl⟩, ?_⟩
    rw [undefined]
    simp only [Bool.false_eq_true, if_false, yields_bind, yields_readBlock, yields_define]
    exact ⟨_, _, ⟨_, rfl, ih⟩, bound, rfl⟩

/-- **What reading yields can be derived**, by induction over the reader's own recursion. -/
theorem reads_of_yields :
    (∀ cx node s i s', Yields (readInstruction cx node) s i s' → Reads cx (.instruction node i) s s')
    ∧ (∀ cx node s is s', Yields (readBlock cx node) s is s' →
        ∃ nodes, node = .list nodes ∧ Reads cx (.instructions nodes is) s s')
    ∧ (∀ cx nodes s is s', Yields (readInstructions cx nodes) s is s' →
        Reads cx (.instructions nodes is) s s')
    ∧ (∀ cx scan whole parts s slot s', Yields (readFunction cx scan whole parts) s slot s' →
        ∃ entries, Reads cx (.function scan parts slot entries) s s')
    ∧ (∀ cx scan slot name nodes s u s', Yields (readSignatures cx scan slot name nodes) s u s' →
        ∃ entries, Reads cx (.signatures scan slot name nodes entries) s s')
    ∧ (∀ cx scan slot name node s u s', Yields (readSignature cx scan slot name node) s u s' →
        ∃ entry, Reads cx (.signature scan slot name node entry) s s') := by
  apply readInstruction.mutual_induct
  -- `break`
  · intro cx s i s' h
    simp only [readInstruction, yields_reading, except_map_eq_ok, Env.check_eq_ok] at h
    obtain ⟨⟨j, hj, rfl⟩, rfl⟩ := h
    obtain ⟨target, henclosing, rfl⟩ := mkJump_eq_ok.mp hj
    exact .jump .break henclosing
  -- `continue`
  · intro cx s i s' h
    simp only [readInstruction, yields_reading, except_map_eq_ok, Env.check_eq_ok] at h
    obtain ⟨⟨j, hj, rfl⟩, rfl⟩ := h
    obtain ⟨target, henclosing, rfl⟩ := mkJump_eq_ok.mp hj
    exact .jump .continue henclosing
  -- declarations
  · intro cx tail s i s' h
    simp only [readInstruction, yields_bind, yields_reading, yields_declare, yields_pure] at h
    obtain ⟨v, _, ⟨hv, rfl⟩, _, _, ⟨rfl, rfl⟩, rfl, rfl⟩ := h
    exact .declare hv
  -- functions
  · intro cx parts ih s i s' h
    simp only [readInstruction, yields_bind, yields_pure] at h
    obtain ⟨slot, _, hf, rfl, rfl⟩ := h
    obtain ⟨entries, hentries⟩ := ih _ _ _ hf
    exact .function hentries
  -- assignments
  · intro cx tail s i s' h
    simp only [readInstruction, yields_bind, yields_reading, yields_pure] at h
    obtain ⟨a, _, ⟨ha, rfl⟩, rfl, rfl⟩ := h
    exact .assign ha
  -- branches
  · intro cx condition thenBody elseBody ih1 ih2 s i s' h
    simp only [readInstruction, yields_bind, yields_reading, yields_pure] at h
    obtain ⟨c, _, ⟨hc, rfl⟩, tis, s1, h1, eis, _, h2, rfl, rfl⟩ := h
    obtain ⟨thenNodes, rfl, hthen⟩ := ih1 _ _ _ h1
    obtain ⟨elseNodes, rfl, helse⟩ := ih2 _ _ _ h2
    exact .branch hc hthen helse
  -- loops
  · intro cx counter start stop increment body ih s i s' h
    simp only [readInstruction, yields_bind, yields_reading, yields_newLoop, yields_pure] at h
    obtain ⟨controls, _, ⟨hcontrols, rfl⟩, _, _, ⟨rfl, rfl⟩, is, _, hbody, rfl, rfl⟩ := h
    obtain ⟨nodes, rfl, hnodes⟩ := ih _ _ _ _ hbody
    exact .loop hcontrols hnodes
  -- returns
  · intro cx tail s i s' h
    simp only [readInstruction, yields_bind, yields_reading, yields_pure] at h
    obtain ⟨value, _, ⟨hvalue, rfl⟩, rfl, rfl⟩ := h
    exact .ret hvalue
  -- what is no instruction
  · intro cx node h1 h2 h3 h4 h5 h6 h7 h8 p hp s i s' h
    rw [readInstruction] at h
    · rw [hp] at h
      exact absurd h yields_fail
    all_goals assumption
  -- rvalues
  · intro cx node h1 h2 h3 h4 h5 h6 h7 h8 hp s i s' h
    rw [readInstruction] at h
    · simp only [hp, yields_bind, yields_reading, yields_pure] at h
      obtain ⟨r, _, ⟨hr, rfl⟩, rfl, rfl⟩ := h
      exact .rvalue hr
    all_goals assumption
  -- blocks
  · intro cx nodes ih s is s' h
    exact ⟨nodes, rfl, ih _ _ _ h⟩
  · intro cx node hnode s is s' h
    obtain ⟨nodes, rfl, -⟩ := yields_readBlock.mp h
    exact absurd rfl (hnode nodes)
  -- signatures
  · intro cx scan slot name ty parameters body ih s u s' h
    simp only [readSignature, yields_bind, yields_reading, yields_inScope, yields_readDeclarations,
      yields_register_iff] at h
    obtain ⟨⟨returnType, declarations⟩, _, ⟨hhead, rfl⟩, _, ⟨ps, s1, hps, index, s2, hindex, h⟩,
      rfl⟩ := h
    obtain ⟨hty, rfl, nodes, rfl⟩ := readSignatureHead_eq_ok.mp hhead
    split at h
    next hskip =>
      obtain ⟨-, rfl⟩ := yields_pure.mp h
      refine ⟨_, .prototype hty hps hindex ?_⟩
      simpa [Node.isEmptyList_iff] using hskip
    next hread =>
      simp only [yields_bind, yields_signatures] at h
      obtain ⟨known, _, ⟨rfl, rfl⟩, h⟩ := h
      split at h
      next => exact absurd h yields_fail
      next hundefined =>
        simp only [yields_bind, yields_define] at h
        obtain ⟨is, s3, hblock, hbound, rfl⟩ := h
        obtain ⟨nodes', heq, his⟩ := ih _ _ _ hblock
        cases heq
        have hscan : scan = false ∧ nodes ≠ [] := by
          simpa [Node.isEmptyList_iff] using hread
        obtain ⟨rfl, hne⟩ := hscan
        exact ⟨_, .definition hty hps hindex hne (by simpa [ReadState.isDefined] using hundefined)
          his hbound⟩
  · intro cx scan slot name tail htail s u s' h
    rw [readSignature] at h
    · exact absurd h yields_fail
    · exact htail
  · intro cx scan slot name node h1 h2 s u s' h
    rw [readSignature] at h
    · exact absurd h yields_fail
    all_goals assumption
  -- lists of instructions
  · intro cx s is s' h
    obtain ⟨rfl, rfl⟩ := yields_pure.mp h
    exact .nil
  · intro cx node rest ih1 ih2 s is s' h
    simp only [readInstructions, yields_bind, yields_pure] at h
    obtain ⟨i, s1, hi, js, _, hjs, rfl, rfl⟩ := h
    exact .cons (ih1 _ _ _ hi) (ih2 _ _ _ hjs)
  -- functions by what follows their tag
  · intro cx scan whole name signature rest ih1 ih2 s slot s' h
    simp only [readFunction, yields_bind, yields_functionSlot, yields_pure] at h
    obtain ⟨_, s1, hplace, u, s2, hsig, v, _, hrest, rfl, rfl⟩ := h
    obtain ⟨entry, hentry⟩ := ih1 _ _ _ _ hsig
    obtain ⟨entries, hentries⟩ := ih2 _ _ _ _ hrest
    exact ⟨entry :: entries, .overloads hplace.symm (.more hentry hentries)⟩
  · intro cx scan whole parts hparts s slot s' h
    rw [readFunction] at h
    · exact absurd h yields_fail
    · exact hparts
  -- lists of signatures
  · intro cx scan slot name s u s' h
    obtain ⟨rfl, rfl⟩ := yields_pure.mp h
    exact ⟨[], .noMore⟩
  · intro cx scan slot name node rest ih1 ih2 s u s' h
    simp only [readSignatures, yields_bind] at h
    obtain ⟨v, s1, hsig, hrest⟩ := h
    obtain ⟨entry, hentry⟩ := ih1 _ _ _ hsig
    obtain ⟨entries, hentries⟩ := ih2 _ _ _ hrest
    exact ⟨entry :: entries, .more hentry hentries⟩

theorem reads_instruction_iff {i : Option Instruction} :
    Reads cx (.instruction node i) s s' ↔ Yields (readInstruction cx node) s i s' :=
  ⟨Reads.runs, reads_of_yields.1 _ _ _ _ _⟩

theorem reads_function_iff {scan : Bool} {whole : Node} {parts : List Node} {slot : Nat} :
    (∃ entries, Reads cx (.function scan parts slot entries) s s')
      ↔ Yields (readFunction cx scan whole parts) s slot s' := by
  constructor
  · rintro ⟨entries, h⟩
    exact h.runs whole
  · intro h
    exact reads_of_yields.2.2.2.1 _ _ _ _ _ _ _ h

end Shading
