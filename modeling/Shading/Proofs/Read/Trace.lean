/-
  Shading.Proofs.Read.Trace — what reading made of each node.

  A module does not show where its parts come from: functions are collected under their names, and
  a body stands with its overload wherever in the text it was found.  A `Trace` is the document
  itself, node by node, with what was made of each: the variable of a declaration, the value of a
  condition, the parameters of a signature.
-/
import Shading.Proofs.Read.Prototypes

namespace Shading

/-! ## §1. Traces -/

mutual

/-- An instruction of a document, with what was made of its parts. -/
inductive Trace where
  /-- One that neither declares a variable nor holds a block. -/
  | plain (node : Node) (i : Instruction)
  | declare (node : Node) (v : Var)
  | branch (condition : Node) (value : Rvalue) (thenPart elsePart : List Trace)
  | loop (counter start stop increment : Node) (id : LoopId) (controls : Controls)
      (part : List Trace)
  | function (name : String) (signatures : List SignatureTrace)

/-- A signature of a document, with its parameters and what was made of its body. -/
structure SignatureTrace where
  ty : Node
  declarations : List Node
  returnType : Ty
  parameters : List Var
  part : List Trace

end

mutual

/-- The node that the trace is about. -/
def Trace.node : Trace → Node
  | .plain node _ => node
  | .declare node _ => node
  | .branch condition _ thenPart elsePart =>
    .list [.symbol "if", condition, .list (Trace.nodes thenPart), .list (Trace.nodes elsePart)]
  | .loop counter start stop increment _ _ part =>
    .list [.symbol "loop", counter, start, stop, increment, .list (Trace.nodes part)]
  | .function name signatures =>
    .list (.symbol "function" :: .symbol name :: SignatureTrace.nodes signatures)

/-- The nodes that the traces are about. -/
def Trace.nodes : List Trace → List Node
  | [] => []
  | t :: rest => Trace.node t :: Trace.nodes rest

/-- The node that the trace of a signature is about. -/
def SignatureTrace.node : SignatureTrace → Node
  | ⟨ty, declarations, _, _, part⟩ =>
    .list [.symbol "signature", ty, .list (.symbol "parameters" :: declarations),
      .list (Trace.nodes part)]

/-- The nodes that the traces of signatures are about. -/
def SignatureTrace.nodes : List SignatureTrace → List Node
  | [] => []
  | sig :: rest => SignatureTrace.node sig :: SignatureTrace.nodes rest

end

mutual

/-- The instruction that was made of the node; a function is none. -/
def Trace.instruction? : Trace → Option Instruction
  | .plain _ i => some i
  | .declare _ v => some (.declare v)
  | .branch _ value thenPart elsePart =>
    some (.branch value (Trace.instructions thenPart) (Trace.instructions elsePart))
  | .loop _ _ _ _ id controls part => some (.loop id controls (Trace.instructions part))
  | .function _ _ => none

/-- The instructions that were made of the nodes. -/
def Trace.instructions : List Trace → List Instruction
  | [] => []
  | t :: rest => (Trace.instruction? t).toList ++ Trace.instructions rest

end

theorem Trace.nodes_eq_nil {ts : List Trace} : Trace.nodes ts = [] ↔ ts = [] := by
  cases ts with
  | nil | cons => simp [Trace.nodes]

theorem Trace.nodes_eq_map (ts : List Trace) : Trace.nodes ts = ts.map (·.node) := by
  induction ts with
  | nil => rfl
  | cons t rest ih => rw [Trace.nodes, ih, List.map_cons]

theorem Trace.instructions_eq (ts : List Trace) :
    Trace.instructions ts = ts.filterMap (·.instruction?) := by
  induction ts with
  | nil => rfl
  | cons t rest ih =>
    rw [Trace.instructions, ih, List.filterMap_cons]
    cases t.instruction? <;> rfl

/-! ## §2. Records -/

/-- Does the instruction neither declare a variable nor hold a block? -/
def Instruction.isPlain : Instruction → Bool
  | .assign _ | .ret _ | .jump _ _ | .rvalue _ => true
  | .declare _ | .function _ _ | .branch _ _ _ | .loop _ _ _ => false

variable {cx : Context} {s s' : ReadState}

/-- A plain instruction is a symbol or a list with a plain tag. -/
theorem Reads.plain_node {node : Node} {i : Instruction}
    (h : Reads cx (.instruction node (some i)) s s') (hplain : i.isPlain = true) :
    (∃ name, node = .symbol name)
      ∨ ∃ tag rest, node = .list (.symbol tag :: rest)
        ∧ tag ∉ ["declare", "function", "if", "loop"] := by
  cases h with
  | jump mode enclosing => exact .inl ⟨_, rfl⟩
  | declare | branch | loop => cases hplain
  | assign assignment =>
    obtain ⟨condition, mask, lhs, rhs, -, -, -, -, rfl, -⟩ := readAssignment_eq_ok.mp assignment
    exact .inr ⟨_, _, rfl, by decide⟩
  | ret returned => exact .inr ⟨_, _, rfl, by decide⟩
  | rvalue value =>
    obtain ⟨tag, rest, rfl, htag⟩ := readRvalue_tag value
    refine .inr ⟨tag, rest, rfl, fun hmem => ?_⟩
    simp only [rvalueTags, List.mem_cons, List.not_mem_nil, or_false] at htag hmem
    rcases hmem with rfl | rfl | rfl | rfl <;> simp at htag

/-- A part of a trace.  Signatures come with their function: its place and its name. -/
inductive Passage where
  | item (t : Trace)
  | block (ts : List Trace)
  | signatures (slot : Nat) (name : String) (sigs : List SignatureTrace)
  | signature (slot : Nat) (name : String) (sig : SignatureTrace)

/-- The part of a trace was left by reading its nodes in the first state, which gave the second. -/
inductive Records : Context → Passage → ReadState → ReadState → Prop
  | plain {cx : Context} {s : ReadState} {node : Node} {i : Instruction}
      (reads : Reads cx (.instruction node (some i)) s s) (simple : i.isPlain = true) :
      Records cx (.item (.plain node i)) s s
  | declare {cx : Context} {s : ReadState} {node : Node} {v : Variable}
      (declaration : readVariable (s.env cx) node = .ok v) :
      Records cx (.item (.declare node (s.nextVar v))) s (s.declare v)
  | branch {cx : Context} {s s1 s' : ReadState} {node : Node} {condition : Rvalue}
      {thenPart elsePart : List Trace} (value : readRvalue (s.env cx) node = .ok condition)
      (first : Records cx (.block thenPart) s s1) (second : Records cx (.block elsePart) s1 s') :
      Records cx (.item (.branch node condition thenPart elsePart)) s s'
  | loop {cx : Context} {s s' : ReadState} {whole counter start stop increment : Node}
      {controls : Controls} {part : List Trace}
      (header : readControls (s.env cx) whole counter start stop increment = .ok controls)
      (inner : Records { cx with enclosing := some s.nextLoop } (.block part) s.takeLoop s') :
      Records cx (.item (.loop counter start stop increment s.nextLoop controls part)) s s'
  | function {cx : Context} {s s1 s' : ReadState} {name : String} {slot : Nat}
      {first : SignatureTrace} {rest : List SignatureTrace} (place : s.slot cx name = (slot, s1))
      (inner : Records cx (.signatures slot name (first :: rest)) s1 s') :
      Records cx (.item (.function name (first :: rest))) s s'
  | nil {cx : Context} {s : ReadState} : Records cx (.block []) s s
  | cons {cx : Context} {s s1 s' : ReadState} {t : Trace} {ts : List Trace}
      (first : Records cx (.item t) s s1) (others : Records cx (.block ts) s1 s') :
      Records cx (.block (t :: ts)) s s'
  | noMore {cx : Context} {s : ReadState} {slot : Nat} {name : String} :
      Records cx (.signatures slot name []) s s
  | more {cx : Context} {s s1 s' : ReadState} {slot : Nat} {name : String} {sig : SignatureTrace}
      {sigs : List SignatureTrace} (first : Records cx (.signature slot name sig) s s1)
      (others : Records cx (.signatures slot name sigs) s1 s') :
      Records cx (.signatures slot name (sig :: sigs)) s s'
  /-- A signature without a body. -/
  | prototype {cx : Context} {s s1 s2 : ReadState} {slot : Nat} {name : String} {ty : Node}
      {declarations : List Node} {returnType : Ty} {parameters : List Var} {index : Nat}
      (type : readType (s.env cx) ty = .ok returnType)
      (declares : Declares cx declarations parameters s.opened s1)
      (registers : Registers slot name returnType parameters index s1 s2) :
      Records cx (.signature slot name ⟨ty, declarations, returnType, parameters, []⟩) s s2.closed
  /-- A signature that completes its overload. -/
  | definition {cx : Context} {s s1 s2 s3 : ReadState} {slot : Nat} {name : String} {ty : Node}
      {declarations : List Node} {returnType : Ty} {parameters : List Var} {index : Nat}
      {part : List Trace} (type : readType (s.env cx) ty = .ok returnType)
      (declares : Declares cx declarations parameters s.opened s1)
      (registers : Registers slot name returnType parameters index s1 s2)
      (nonempty : part ≠ []) (undefined : s2.isDefined slot index = false)
      (inner : Records { cx with function := some name, enclosing := none } (.block part) s2 s3)
      (bound : (s3.symbols.findFunction? name).isSome) :
      Records cx (.signature slot name ⟨ty, declarations, returnType, parameters, part⟩) s
        (s3.complete slot name index (Trace.instructions part)).closed

/-- What reading the nodes of the passage gives, as a reading. -/
def Passage.Read (cx : Context) (s s' : ReadState) : Passage → Prop
  | .item t => Reads cx (.instruction t.node t.instruction?) s s'
  | .block ts => Reads cx (.instructions (Trace.nodes ts) (Trace.instructions ts)) s s'
  | .signatures slot name sigs =>
    ∃ entries, Reads cx (.signatures false slot name (SignatureTrace.nodes sigs) entries) s s'
  | .signature slot name sig =>
    ∃ entry, Reads cx (.signature false slot name sig.node entry) s s'

/-- What a trace records was read. -/
theorem Records.reads {cx : Context} {passage : Passage} {s s' : ReadState}
    (h : Records cx passage s s') : passage.Read cx s s' := by
  induction h with
  | plain reads simple => exact reads
  | declare declaration => exact .declare declaration
  | branch value first second ih1 ih2 => exact .branch value ih1 ih2
  | loop header inner ih => exact .loop header ih
  | function place inner ih =>
    obtain ⟨entries, hentries⟩ := ih
    exact .function (.overloads place hentries)
  | nil => exact .nil
  | cons first others ih1 ih2 => exact .cons ih1 ih2
  | noMore => exact ⟨[], .noMore⟩
  | more first others ih1 ih2 =>
    obtain ⟨entry, hentry⟩ := ih1
    obtain ⟨entries, hentries⟩ := ih2
    exact ⟨entry :: entries, .more hentry hentries⟩
  | prototype type declares registers => exact ⟨_, .prototype type declares registers (.inr rfl)⟩
  | definition type declares registers nonempty undefined inner bound ih =>
    exact ⟨_, .definition type declares registers (mt Trace.nodes_eq_nil.mp nonempty) undefined ih
      bound⟩

/-- The function of the signatures has the place that it should have. -/
def Passage.Placed (s : ReadState) : Passage → Prop
  | .signatures slot name _ => s.Places slot name
  | .signature slot name _ => s.Places slot name
  | _ => True

variable {passage : Passage}

theorem Records.exists_reads (h : Records cx passage s s') :
    ∃ reading, Reads cx reading s s' ∧ (passage.Placed s → reading.Placed s) := by
  have hreads := h.reads
  cases passage with
  | item | block => exact ⟨_, hreads, id⟩
  | signatures slot name sigs =>
    obtain ⟨entries, hentries⟩ := hreads
    exact ⟨_, hentries, id⟩
  | signature slot name sig =>
    obtain ⟨entry, hentry⟩ := hreads
    exact ⟨_, hentry, id⟩

theorem Records.functionNames_prefix (h : Records cx passage s s') :
    s.functionNames <+: s'.functionNames := by
  obtain ⟨reading, hreads, -⟩ := h.exists_reads
  exact hreads.functionNames_prefix

theorem Records.steady (h : Records cx passage s s') (hplaced : passage.Placed s)
    (hs : s.Steady cx.globalDepth) : s'.Steady cx.globalDepth := by
  obtain ⟨reading, hreads, hplace⟩ := h.exists_reads
  exact (hreads.steady (hplace hplaced) hs).1

/-- The reading left a trace.  A scan leaves none. -/
def Reading.Recorded (cx : Context) (s s' : ReadState) : Reading → Prop
  | .instruction node i => ∃ t, t.node = node ∧ t.instruction? = i ∧ Records cx (.item t) s s'
  | .instructions nodes is =>
    ∃ ts, Trace.nodes ts = nodes ∧ Trace.instructions ts = is ∧ Records cx (.block ts) s s'
  | .function scan parts _ _ => scan = false → ∃ name sigs,
    parts = .symbol name :: SignatureTrace.nodes sigs ∧ Records cx (.item (.function name sigs)) s s'
  | .signatures scan slot name nodes _ => scan = false → ∃ sigs,
    SignatureTrace.nodes sigs = nodes ∧ Records cx (.signatures slot name sigs) s s'
  | .signature scan slot name node _ => scan = false → ∃ sig,
    sig.node = node ∧ Records cx (.signature slot name sig) s s'

/-- **Every successful reading leaves a trace.** -/
theorem Reads.recorded {reading : Reading} (h : Reads cx reading s s') :
    reading.Recorded cx s s' := by
  induction h with
  | jump mode enclosing => exact ⟨_, rfl, rfl, .plain (.jump mode enclosing) rfl⟩
  | declare declaration => exact ⟨_, rfl, rfl, .declare declaration⟩
  | function inner ih =>
    obtain ⟨name, sigs, rfl, hrecords⟩ := ih rfl
    exact ⟨_, rfl, rfl, hrecords⟩
  | assign assignment => exact ⟨_, rfl, rfl, .plain (.assign assignment) rfl⟩
  | branch value first second ih1 ih2 =>
    obtain ⟨thenPart, rfl, rfl, h1⟩ := ih1
    obtain ⟨elsePart, rfl, rfl, h2⟩ := ih2
    exact ⟨_, rfl, rfl, .branch value h1 h2⟩
  | loop header inner ih =>
    obtain ⟨part, rfl, rfl, hpart⟩ := ih
    exact ⟨_, rfl, rfl, .loop header hpart⟩
  | ret returned => exact ⟨_, rfl, rfl, .plain (.ret returned) rfl⟩
  | rvalue value => exact ⟨_, rfl, rfl, .plain (.rvalue value) rfl⟩
  | nil => exact ⟨[], rfl, rfl, .nil⟩
  | cons first others ih1 ih2 =>
    obtain ⟨t, rfl, rfl, ht⟩ := ih1
    obtain ⟨ts, rfl, rfl, hts⟩ := ih2
    exact ⟨t :: ts, rfl, rfl, .cons ht hts⟩
  | overloads place inner ih =>
    intro hscan
    obtain ⟨sigs, hnodes, hsigs⟩ := ih hscan
    cases sigs with
    | nil => cases hnodes
    | cons sig sigs => exact ⟨_, sig :: sigs, by rw [hnodes], .function place hsigs⟩
  | noMore => exact fun _ => ⟨[], rfl, .noMore⟩
  | more first others ih1 ih2 =>
    intro hscan
    obtain ⟨sig, rfl, hsig⟩ := ih1 hscan
    obtain ⟨sigs, rfl, hsigs⟩ := ih2 hscan
    exact ⟨sig :: sigs, rfl, .more hsig hsigs⟩
  | prototype type declares registers silent =>
    rintro rfl
    obtain rfl := silent.resolve_left Bool.false_ne_true
    exact ⟨⟨_, _, _, _, []⟩, rfl, .prototype type declares registers⟩
  | definition type declares registers nonempty undefined inner bound ih =>
    intro _
    obtain ⟨part, rfl, rfl, hpart⟩ := ih
    exact ⟨⟨_, _, _, _, part⟩, rfl, .definition type declares registers
      (mt Trace.nodes_eq_nil.mpr nonempty) undefined hpart bound⟩

/-! ## §3. Documents -/

/-- The traces were left by reading the document, after a scan if there was one. -/
structure Traced (scan : Bool) (u : CompilationUnit) (nodes : List Node) (ts : List Trace)
    (s' : ReadState) : Prop where
  nodes_eq : Trace.nodes ts = nodes
  pass : ∃ s1,
    (if scan then
      ReadM.Yields (Read.scanPrototypes ⟨none, none, u.symbols.depth⟩ nodes)
        (u.start.noted (.scanning nodes.length)) () s1
    else s1 = u.start)
    ∧ Records ⟨none, none, u.symbols.depth⟩ (.block ts) (s1.noted (.reading nodes.length)) s'

end Shading
