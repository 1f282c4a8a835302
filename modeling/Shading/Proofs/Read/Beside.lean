/-
  Shading.Proofs.Read.Beside — reading beside functions that are met already.

  A document reads the same if other functions were met before it, as long as it names none of them.
  Its own functions only get later places.  `Beside` says so of a computation, also of one that fails.
-/
import Shading.Proofs.Read.Positions

namespace Shading

open List ReadM

/-! ## §1. Computations beside other functions -/

/-- The state in which these functions were met and these notes made before. -/
def ReadState.beside (fs : List Function) (old : List ReadNote) (s : ReadState) : ReadState :=
  { s with functions := fs ++ s.functions, notes := s.notes ++ old }

/-- Beside the functions, the first computation does what the second does alone, with its answer
    moved. -/
def Beside {α β : Type} (fs : List Function) (old : List ReadNote) (move : α → β) (x' : ReadM β)
    (x : ReadM α) : Prop :=
  ∀ s, x'.run.run (s.beside fs old)
    = ((x.run.run s).1.map move, (x.run.run s).2.beside fs old)

variable {cx : Context} {node : Node}

namespace Beside

variable {α β γ δ : Type} {fs : List Function} {old : List ReadNote}

theorem pure {move : α → β} {a : α} {b : β} (h : b = move a) :
    Beside fs old move (Pure.pure b) (Pure.pure a) := by
  intro s
  rw [h]
  rfl

/-- Two readings side by side go on side by side. -/
theorem bind {move : α → β} {move' : γ → δ} {x' : ReadM β} {x : ReadM α} {f' : β → ReadM δ}
    {f : α → ReadM γ} (hx : Beside fs old move x' x)
    (hf : ∀ a, Beside fs old move' (f' (move a)) (f a)) :
    Beside fs old move' (x' >>= f') (x >>= f) := by
  intro s
  rw [run_bind, run_bind, hx s]
  cases hresult : (x.run.run s).1 with
  | error e => rfl
  | ok a => exact hf a _

theorem seq {move : γ → δ} {x' x : ReadM α} {f' : α → ReadM δ} {f : α → ReadM γ}
    (hx : Beside fs old id x' x) (hf : ∀ a, Beside fs old move (f' a) (f a)) :
    Beside fs old move (x' >>= f') (x >>= f) := hx.bind hf

theorem fail {move : α → β} {p : Problem} :
    Beside fs old move (ReadM.fail cx node p) (ReadM.fail cx node p) := fun _ => rfl

theorem state : Beside fs old (ReadState.beside fs old) (get : ReadM ReadState) get := fun _ => rfl

theorem reading (cx : Context) (f : Env → Except ReadError α) :
    Beside fs old id (ReadM.reading cx f) (ReadM.reading cx f) := by
  have henv : Beside fs old id (ReadM.env cx) (ReadM.env cx) := state.bind fun _ => pure rfl
  refine henv.seq fun env => ?_
  cases f env with
  | error e => exact fun _ => rfl
  | ok a => exact pure rfl

theorem change {f' f : ReadState → ReadState}
    (h : ∀ s, f' (s.beside fs old) = (f s).beside fs old) :
    Beside fs old id (modify f' : ReadM PUnit) (modify f) := by
  intro s
  show (Except.ok PUnit.unit, f' (s.beside fs old)) = (Except.ok PUnit.unit, (f s).beside fs old)
  rw [h]

theorem declare (v : Variable) :
    Beside fs old id (ReadM.declare v) (ReadM.declare v) := fun _ => rfl

theorem newLoop : Beside fs old id ReadM.newLoop ReadM.newLoop := fun _ => rfl

theorem inScope {move : α → β} {x' : ReadM β} {x : ReadM α} (h : Beside fs old move x' x) :
    Beside fs old move (ReadM.inScope x') (ReadM.inScope x) := by
  intro s
  show ((x'.run.run (s.opened.beside fs old)).1, (x'.run.run (s.opened.beside fs old)).2.closed) = _
  rw [h s.opened]
  rfl

end Beside

/-! ## §2. Functions -/

variable {α : Type} {name : String}

section

variable {fs : List Function} {old : List ReadNote}

theorem modify_append_right (xs ys : List α) (i : Nat) (f : α → α) :
    (xs ++ ys).modify (i + xs.length) f = xs ++ ys.modify i f := by
  induction xs with
  | nil => rfl
  | cons x xs ih =>
    show x :: (xs ++ ys).modify (i + xs.length) f = _
    rw [ih]
    rfl

theorem getElem?_append_add (xs ys : List α) (i : Nat) : (xs ++ ys)[i + xs.length]? = ys[i]? := by
  rw [getElem?_append_right (Nat.le_add_left ..), Nat.add_sub_cancel]

/-- A slot is found behind the functions that stand before. -/
theorem slot_beside (hname : name ∉ fs.map (·.name)) (s : ReadState) :
    (s.beside fs old).slot cx name
      = ((s.slot cx name).1 + fs.length, (s.slot cx name).2.beside fs old) := by
  have hnone : fs.findIdx? (·.name == name) = none := by
    rw [findIdx?_eq_none_iff]
    intro f hf
    rw [beq_eq_false_iff_ne]
    exact fun heq => hname (heq ▸ mem_map_of_mem hf)
  have hfind : (fs ++ s.functions).findIdx? (·.name == name)
      = (s.functions.findIdx? (·.name == name)).map (· + fs.length) := by
    rw [findIdx?_append, hnone, Option.none_or]
  have hlength : (fs ++ s.functions).length = s.functions.length + fs.length := by
    rw [length_append, Nat.add_comm]
  have hfunctions : (s.beside fs old).functions = fs ++ s.functions := rfl
  have hsymbols : (s.beside fs old).symbols = s.symbols := rfl
  unfold ReadState.slot
  rw [hfunctions, hfind, hsymbols, hlength]
  cases s.functions.findIdx? (·.name == name) with
  | some slot => rfl
  | none =>
    cases s.symbols.findFunction? name with
    | some | none => simp [ReadState.beside]

theorem run_functionSlot (cx : Context) (name : String) (s : ReadState) :
    (functionSlot cx name).run.run s = (.ok (s.slot cx name).1, (s.slot cx name).2) :=
  yields_functionSlot.mpr rfl

namespace Beside

theorem functionSlot (hname : name ∉ fs.map (·.name)) :
    Beside fs old (· + fs.length) (ReadM.functionSlot cx name) (ReadM.functionSlot cx name) := by
  intro s
  rw [run_functionSlot, run_functionSlot, slot_beside hname]
  rfl

theorem signatures (slot : Nat) :
    Beside fs old id (ReadM.signatures (slot + fs.length)) (ReadM.signatures slot) := by
  intro s
  show (Except.ok (((fs ++ s.functions)[slot + fs.length]?.map (·.signatures)).getD []), _) = _
  rw [getElem?_append_add]
  rfl

theorem onFunction (slot : Nat) (f : Function → Function) :
    Beside fs old id
      (modify fun s => { s with functions := s.functions.modify (slot + fs.length) f } : ReadM PUnit)
      (modify fun s => { s with functions := s.functions.modify slot f }) := by
  refine change ?_
  intro s
  show { s.beside fs old with functions := (fs ++ s.functions).modify (slot + fs.length) f } = _
  rw [modify_append_right]
  rfl

theorem prototype (cx : Context) (node : Node) (name : String) :
    Beside fs old id (ReadM.prototype cx node name) (ReadM.prototype cx node name) := by
  refine state.bind fun s => ?_
  have hsymbols : (s.beside fs old).symbols = s.symbols := rfl
  rw [hsymbols]
  cases s.symbols.findFunction? name with
  | some p => exact pure rfl
  | none => exact fail

theorem modifyPrototype (cx : Context) (node : Node) (name : String) (f : Prototype → Prototype) :
    Beside fs old id (ReadM.modifyPrototype cx node name f) (ReadM.modifyPrototype cx node name f) :=
  (prototype cx node name).seq fun _ => change fun _ => rfl

theorem checkRepeated (cx : Context) (node : Node) (name : String) (known : Signature)
    (returnType : Ty) (parameters : List Var) :
    Beside fs old id (ReadM.checkRepeated cx node name known returnType parameters)
      (ReadM.checkRepeated cx node name known returnType parameters) := by
  unfold ReadM.checkRepeated
  split
  next => exact fail
  next =>
    split
    next => exact pure rfl
    next => exact fail

/-- An overload has the same index whatever stands before. -/
theorem signatureIndex (cx : Context) (node : Node) (slot : Nat) (name : String) (returnType : Ty)
    (parameters : List Var) :
    Beside fs old id
      (ReadM.signatureIndex cx node (slot + fs.length) name returnType parameters)
      (ReadM.signatureIndex cx node slot name returnType parameters) := by
  unfold ReadM.signatureIndex
  refine (prototype cx node name).seq fun p => ?_
  refine (signatures slot).seq fun known => ?_
  cases p.matching? (parameters.map (·.ty)) with
  | some index =>
    exact (checkRepeated cx node name _ returnType parameters).seq fun _ => pure rfl
  | none =>
    refine (onFunction slot _).seq fun _ => ?_
    exact (modifyPrototype cx node name _).seq fun _ => pure rfl

theorem register (cx : Context) (node : Node) (slot : Nat) (name : String) (returnType : Ty)
    (parameters : List Var) :
    Beside fs old id (ReadM.register cx node (slot + fs.length) name returnType parameters)
      (ReadM.register cx node slot name returnType parameters) := by
  refine (signatureIndex cx node slot name returnType parameters).seq fun index => ?_
  refine (modifyPrototype cx node name _).seq fun _ => ?_
  exact (onFunction slot _).seq fun _ => pure rfl

theorem define (cx : Context) (node : Node) (slot index : Nat) (name : String)
    (body : List Instruction) :
    Beside fs old id (ReadM.define cx node (slot + fs.length) index name body)
      (ReadM.define cx node slot index name body) :=
  (modifyPrototype cx node name _).seq fun _ => onFunction slot _

theorem readDeclarations (cx : Context) (nodes : List Node) :
    Beside fs old id (Shading.readDeclarations cx nodes) (Shading.readDeclarations cx nodes) := by
  induction nodes with
  | nil => exact pure rfl
  | cons node rest ih =>
    refine (reading cx _).seq fun v => ?_
    refine (declare v).seq fun w => ?_
    exact ih.seq fun vs => pure rfl

end Beside

/-! ## §3. The reader -/

/-- None of the functions in front is named at these places. -/
def Apart (fs : List Function) (places : List (Node × Bool)) : Prop :=
  ∀ name ∈ namesAt places, name ∉ fs.map (·.name)

theorem apart_append {ps qs : List (Node × Bool)} :
    Apart fs (ps ++ qs) ↔ Apart fs ps ∧ Apart fs qs := forall_namesAt_append

theorem apart_cons {inLoop : Bool} {ps : List (Node × Bool)} :
    Apart fs ((node, inLoop) :: ps)
      ↔ (∀ name ∈ node.functionName?, name ∉ fs.map (·.name)) ∧ Apart fs ps := forall_namesAt_cons

theorem beside_simple (f : Env → Except ReadError α) (g : α → Instruction) :
    Beside fs old id (do let a ← reading cx f; pure (some (g a)) : ReadM (Option Instruction))
      (do let a ← reading cx f; pure (some (g a))) :=
  (Beside.reading cx f).seq fun _ => .pure rfl

/-- A signature is read alike beside other functions. -/
theorem beside_signature {scan : Bool} {slot : Nat} {ty parameters body : Node}
    (hbody : Beside fs old id
      (readBlock { cx with function := some name, enclosing := none } body)
      (readBlock { cx with function := some name, enclosing := none } body)) :
    Beside fs old id
      (readSignature cx scan (slot + fs.length) name
        (.list [.symbol "signature", ty, parameters, body]))
      (readSignature cx scan slot name (.list [.symbol "signature", ty, parameters, body])) := by
  rw [readSignature, readSignature]
  refine (Beside.reading cx _).seq fun head => ?_
  refine .inScope ((Beside.readDeclarations cx _).seq fun ps => ?_)
  refine (Beside.register cx _ slot name _ ps).seq fun index => ?_
  split
  next => exact .pure rfl
  next =>
    refine (Beside.signatures slot).seq fun known => ?_
    split
    next => exact .fail
    next => exact hbody.seq fun is => .define cx _ slot index name is

/-- **The reader reads the same beside functions that it does not name.** -/
theorem beside_read :
    (∀ cx node, ∀ inLoop, Apart fs ((node, inLoop) :: node.inside inLoop) →
        Beside fs old id (readInstruction cx node) (readInstruction cx node))
    ∧ (∀ cx node, ∀ inLoop, Apart fs (node.insideBlock inLoop) →
        Beside fs old id (readBlock cx node) (readBlock cx node))
    ∧ (∀ cx nodes, ∀ inLoop, Apart fs (Node.positions inLoop nodes) →
        Beside fs old id (readInstructions cx nodes) (readInstructions cx nodes))
    ∧ (∀ cx scan whole parts, ∀ inLoop,
        Apart fs ((.list (.symbol "function" :: parts), inLoop)
          :: (Node.list (.symbol "function" :: parts)).inside inLoop) →
        Beside fs old (· + fs.length) (readFunction cx scan whole parts)
          (readFunction cx scan whole parts))
    ∧ (∀ cx scan slot name nodes, Apart fs (Node.insideSignatures nodes) →
        Beside fs old id (readSignatures cx scan (slot + fs.length) name nodes)
          (readSignatures cx scan slot name nodes))
    ∧ (∀ cx scan slot name node, Apart fs node.insideSignature →
        Beside fs old id (readSignature cx scan (slot + fs.length) name node)
          (readSignature cx scan slot name node)) := by
  apply readInstruction.mutual_induct
  -- `break`
  · intro cx inLoop _
    rw [readInstruction]
    exact .reading cx _
  -- `continue`
  · intro cx inLoop _
    rw [readInstruction]
    exact .reading cx _
  -- declarations
  · intro cx tail inLoop _
    rw [readInstruction]
    exact (Beside.reading cx _).seq fun v => (Beside.declare v).seq fun _ => .pure rfl
  -- functions
  · intro cx parts ih inLoop hapart
    rw [readInstruction]
    exact (ih inLoop hapart).bind fun _ => .pure rfl
  -- assignments
  · intro cx tail inLoop _
    rw [readInstruction]
    exact beside_simple _ .assign
  -- branches
  · intro cx condition thenBody elseBody ih1 ih2 inLoop hapart
    obtain ⟨-, hblocks⟩ := apart_cons.mp hapart
    obtain ⟨hthen, helse⟩ := apart_append.mp hblocks
    rw [readInstruction]
    refine (Beside.reading cx _).seq fun c => ?_
    refine (ih1 inLoop hthen).seq fun _ => ?_
    exact (ih2 inLoop helse).seq fun _ => .pure rfl
  -- loops
  · intro cx counter start stop increment body ih inLoop hapart
    obtain ⟨-, hbody⟩ := apart_cons.mp hapart
    rw [readInstruction]
    refine (Beside.reading cx _).seq fun controls => ?_
    refine Beside.newLoop.seq fun id => ?_
    exact (ih id true hbody).seq fun _ => .pure rfl
  -- returns
  · intro cx tail inLoop _
    rw [readInstruction]
    exact beside_simple _ .ret
  -- what is no instruction
  · intro cx node h1 h2 h3 h4 h5 h6 h7 h8 p hp inLoop _
    rw [readInstruction, hp]
    · exact .fail
    all_goals assumption
  -- rvalues
  · intro cx node h1 h2 h3 h4 h5 h6 h7 h8 hp inLoop _
    rw [readInstruction, hp]
    · exact beside_simple _ .rvalue
    all_goals assumption
  -- blocks
  · intro cx nodes ih inLoop hapart
    exact ih inLoop hapart
  · intro cx node hnode inLoop _
    rw [readBlock]
    · exact .fail
    all_goals exact hnode
  -- signatures
  · intro cx scan slot name ty parameters body ih hapart
    exact beside_signature (ih false hapart)
  · intro cx scan slot name tail htail _
    rw [readSignature, readSignature]
    · exact .fail
    all_goals exact htail
  · intro cx scan slot name node h1 h2 _
    rw [readSignature, readSignature]
    · exact .fail
    all_goals assumption
  -- lists of instructions
  · intro cx inLoop _
    exact .pure rfl
  · intro cx node rest ih1 ih2 inLoop hapart
    obtain ⟨hnode, hapart'⟩ := apart_cons.mp hapart
    obtain ⟨hinside, hrest⟩ := apart_append.mp hapart'
    rw [readInstructions]
    refine (ih1 inLoop (apart_cons.mpr ⟨hnode, hinside⟩)).seq fun i => ?_
    exact (ih2 inLoop hrest).seq fun is => .pure rfl
  -- functions by what follows their tag
  · intro cx scan whole name signature rest ih1 ih2 inLoop hapart
    obtain ⟨hname, hinside⟩ := apart_cons.mp hapart
    obtain ⟨hfirst, hothers⟩ := apart_append.mp hinside
    rw [readFunction]
    refine (Beside.functionSlot (hname name rfl)).bind fun slot => ?_
    refine (ih1 slot hfirst).seq fun _ => ?_
    exact (ih2 slot hothers).seq fun _ => .pure rfl
  · intro cx scan whole parts hparts inLoop _
    rw [readFunction]
    · exact .fail
    all_goals exact hparts
  -- lists of signatures
  · intro cx scan slot name _
    exact .pure rfl
  · intro cx scan slot name node rest ih1 ih2 hapart
    obtain ⟨hnode, hrest⟩ := apart_append.mp hapart
    rw [readSignatures, readSignatures]
    exact (ih1 hnode).seq fun _ => ih2 hrest

/-! ## §4. Items -/

theorem beside_readTop (hapart : Apart fs ((node, false) :: node.inside false)) :
    Beside fs old (fun r => (r.1, r.2.map (· + fs.length))) (Read.readTop cx node)
      (Read.readTop cx node) := by
  cases hfun : node.isFunction with
  | false =>
    rw [readTop_other hfun]
    exact (beside_read.1 cx node false hapart).seq fun _ => .pure rfl
  | true =>
    obtain ⟨parts, rfl⟩ := Node.isFunction_iff.mp hfun
    exact (beside_read.2.2.2.1 cx false _ parts false hapart).bind fun _ => .pure rfl

theorem eraseDups_map_add (k : Nat) (xs : List Nat) :
    (xs.map (· + k)).eraseDups = xs.eraseDups.map (· + k) := by
  induction h : xs.length using Nat.strongRecOn generalizing xs with
  | ind n ih =>
    cases xs with
    | nil => rfl
    | cons x xs =>
      have hfilter : (xs.map (· + k)).filter (fun y => !y == x + k)
          = (xs.filter fun y => !y == x).map (· + k) := by
        rw [filter_map]
        refine congrArg _ (filter_congr ?_)
        intro y _
        rw [Bool.eq_iff_iff]
        simp
      have hlength : (xs.filter fun y => !y == x).length < n := by
        have := length_filter_le (fun y => !y == x) xs
        rw [length_cons] at h
        omega
      rw [map_cons, eraseDups_cons, eraseDups_cons, map_cons, hfilter,
        ih _ hlength _ rfl]

theorem unplaced_add {k : Nat} {placed' placed : List Nat}
    (hplaced : ∀ slot, slot + k ∈ placed' ↔ slot ∈ placed) (top : Option Nat) (seen count : Nat) :
    Read.unplaced placed' (top.map (· + k)) (seen + k) (count + k)
      = (Read.unplaced placed top seen count).map (· + k) := by
  have hcount : count + k - (seen + k) = count - seen := by omega
  have hrange : List.range' (seen + k) (count - seen)
      = (List.range' seen (count - seen)).map (· + k) := by
    rw [Nat.add_comm seen k, ← map_add_range']
    exact map_congr_left fun n _ => Nat.add_comm ..
  have htop : (top.map (· + k)).toList = top.toList.map (· + k) := by
    cases top with
    | none | some => rfl
  unfold Read.unplaced
  rw [hcount, hrange, htop, ← map_append, filter_map, eraseDups_map_add]
  refine congrArg (fun xs => (List.eraseDups xs).map (· + k)) (filter_congr ?_)
  intro slot _
  simp [hplaced]

/-- The item with its function at a later place. -/
def Item.move (k : Nat) : Item → Item
  | .instruction i => .instruction i
  | .function slot => .function (slot + k)

variable (old) in
/-- **Documents read the same beside functions that they do not name**, with later places. -/
theorem beside_readItems (cx : Context) {nodes : List Node} {placed' placed : List Nat} (seen : Nat)
    (hapart : Apart fs (Node.positions false nodes))
    (hplaced : ∀ slot, slot + fs.length ∈ placed' ↔ slot ∈ placed) :
    Beside fs old (List.map (Item.move fs.length))
      (Read.readItems cx placed' (seen + fs.length) nodes) (Read.readItems cx placed seen nodes) := by
  induction nodes generalizing placed' placed seen with
  | nil => exact .pure rfl
  | cons node rest ih =>
    obtain ⟨hnode, hapart'⟩ := apart_cons.mp hapart
    obtain ⟨hinside, hrest⟩ := apart_append.mp hapart'
    rw [Read.readItems, Read.readItems]
    refine (beside_readTop (apart_cons.mpr ⟨hnode, hinside⟩)).bind fun r => ?_
    refine Beside.state.bind fun s => ?_
    have hcount : (s.beside fs old).functions.length = s.functions.length + fs.length := by
      show (fs ++ s.functions).length = _
      rw [length_append, Nat.add_comm]
    have hfresh := unplaced_add hplaced r.2 seen s.functions.length
    dsimp only
    rw [hcount, hfresh]
    refine (ih _ hrest ?_).bind fun items => .pure ?_
    · intro slot
      rw [mem_append, mem_append, hplaced]
      simp
    · simp only [map_append, map_map]
      rfl

end

end Shading
