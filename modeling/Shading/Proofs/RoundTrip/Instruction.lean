/-
  Shading.Proofs.RoundTrip.Instruction — instructions read from their own text.

  If an instruction was read in some state, its text is read in the same state, gives the same
  instruction and leaves the same state (`Reads.reread`).  So the two readings of a module go
  through the same states side by side, and number variables and loops alike.
-/
import Shading.Proofs.Read.Document
import Shading.Proofs.RoundTrip.Value

namespace Shading

open List Instruction Layout

/-! ## §1. Blocks without functions -/

mutual

/-- Does no function stand in a block of the instruction? -/
def Node.isFlat : Node → Bool
  | .list [.symbol "if", _, .list thenNodes, .list elseNodes] =>
    Node.isFlatBlock thenNodes && Node.isFlatBlock elseNodes
  | .list [.symbol "loop", _, _, _, _, .list nodes] => Node.isFlatBlock nodes
  | _ => true

/-- Does no function stand in the block? -/
def Node.isFlatBlock : List Node → Bool
  | [] => true
  | node :: rest => !node.isFunction && Node.isFlat node && Node.isFlatBlock rest

end

/-- Does no function stand in the body of the signature? -/
def Node.isFlatSignature : Node → Bool
  | .list [.symbol "signature", _, _, .list nodes] => Node.isFlatBlock nodes
  | _ => true

theorem Node.isFlat_branch {condition : Node} {thenNodes elseNodes : List Node} :
    (Node.list [.symbol "if", condition, .list thenNodes, .list elseNodes]).isFlat = true
      ↔ Node.isFlatBlock thenNodes = true ∧ Node.isFlatBlock elseNodes = true := by
  simp [Node.isFlat]

variable {node : Node}

theorem Node.isFlatBlock_cons {rest : List Node} :
    Node.isFlatBlock (node :: rest) = true
      ↔ node.isFunction = false ∧ node.isFlat = true ∧ Node.isFlatBlock rest = true := by
  simp [Node.isFlatBlock, and_assoc]

/-- No function stands inside of what is read. -/
def Reading.Flat : Reading → Prop
  | .instruction node _ => node.isFunction = false ∧ node.isFlat = true
  | .instructions nodes _ => Node.isFlatBlock nodes = true
  | .function _ parts _ _ => ∀ node ∈ parts, node.isFlatSignature = true
  | .signatures _ _ _ nodes _ => ∀ node ∈ nodes, node.isFlatSignature = true
  | .signature _ _ _ node _ => node.isFlatSignature = true

/-! ## §2. Declarations -/

theorem nodes?_symbols {names : List String} (h : ∀ name ∈ names, IsSymbol name) :
    nodes? (names.map .word) = some (names.map .symbol) := by
  induction names with
  | nil => rfl
  | cons name names ih =>
    exact nodes?_cons_some (node?_symbol (h name mem_cons_self))
      (ih fun other hother => h other (mem_cons_of_mem _ hother))

theorem Variable.isSymbol_qualifiers (v : Variable) : ∀ q ∈ v.qualifiers, IsSymbol q := by
  have hmode : ∀ m : Mode, ∀ q ∈ m.qualifier?.toList, IsSymbol q := by
    intro m
    cases m <;> decide
  have hinterpolation : ∀ i : Interpolation, ∀ q ∈ i.qualifier?.toList, IsSymbol q := by
    intro i
    cases i <;> decide
  have hflag : ∀ (b : Bool) (name : String), IsSymbol name →
      ∀ q ∈ (if b then [name] else []), IsSymbol q := by
    intro b name hname q hq
    cases b with
    | false => cases hq
    | true =>
      obtain rfl := mem_singleton.mp hq
      exact hname
  intro q hq
  simp only [Variable.qualifiers, mem_append] at hq
  rcases hq with ((hq | hq) | hq) | hq
  · exact hflag v.centroid "centroid" (by decide) q hq
  · exact hflag v.invariant "invariant" (by decide) q hq
  · exact hinterpolation v.interpolation q hq
  · exact hmode v.mode q hq

theorem Variable.qualifyAll?_qualifiers (v : Variable) :
    Variable.qualifyAll? { name := v.name, ty := v.ty } (v.qualifiers.map .symbol) = some v := by
  obtain ⟨name, ty, centroid, invariant, mode, interpolation⟩ := v
  cases centroid <;> cases invariant <;> cases mode <;> cases interpolation <;> rfl

/-- A declaration is read back from its layout. -/
theorem readVariable_reread {env : Env} (henv : env.symbols.SelfNamed) {v : Variable}
    (hnode : node.Readable) (h : readVariable env node = .ok v) :
    ∃ node', v.layout.node? = some node' ∧ readVariable env node' = .ok v := by
  have hname := isSymbol_of_readVariable hnode h
  obtain ⟨qualifiers, ty, name, t, rfl, ht, hv⟩ := readVariable_eq_ok.mp h
  obtain ⟨rfl, rfl⟩ := Variable.qualifyAll?_keeps hv
  refine ⟨.list [.symbol "declare", .list (v.qualifiers.map .symbol), ty, .symbol v.name], ?_, ?_⟩
  · exact node?_line_some (nodes?_cons_some node?_keyword
      (nodes?_cons_some
        (node?_line_some (nodes?_symbols v.isSymbol_qualifiers))
        (nodes?_cons_some (layout_of_readType henv ht)
          (nodes?_cons_some (node?_symbol hname) rfl))))
  · exact readVariable_eq_ok.mpr ⟨_, _, _, _, rfl, ht, v.qualifyAll?_qualifiers⟩

variable {nodes : List Node}

theorem declares_reread {cx : Context} {vs : List Var} {s s' : ReadState}
    (h : Declares cx nodes vs s s') (hnodes : ∀ node ∈ nodes, node.Readable)
    (hs : s.symbols.SelfNamed) :
    ∃ nodes', nodes? (vs.map (·.value.layout)) = some nodes'
      ∧ Declares cx nodes' vs s s' := by
  induction h with
  | nil s => exact ⟨[], rfl, .nil s⟩
  | @cons node rest v vs s s' first others ih =>
    have hnode := hnodes node mem_cons_self
    have henv : (s.env cx).symbols.SelfNamed := hs
    obtain ⟨node', hnode', hread⟩ := readVariable_reread henv hnode first
    obtain ⟨-, ty, -, t, -, ht, -⟩ := readVariable_eq_ok.mp first
    have hs' : (s.declare v).symbols.SelfNamed :=
      hs.addVariable (isSymbol_of_readVariable hnode first) (scopes_ne_nil_of_readType ht)
    obtain ⟨nodes', hnodes', hothers⟩ :=
      ih (fun n hn => hnodes n (mem_cons_of_mem _ hn)) hs'
    exact ⟨node' :: nodes', nodes?_cons_some hnode' hnodes', .cons hread hothers⟩

/-! ## §3. Statements without blocks -/

theorem blockLayout_node? {rows : List Layout} (h : nodes? rows = some nodes) :
    (blockLayout rows).node? = some (.list nodes) := by
  cases rows with
  | nil =>
    cases h
    rfl
  | cons row rows => exact node?_rows.mpr ⟨[], nodes, rfl, h, rfl⟩

/-- A mask is read back from its letters. -/
theorem WriteMask.layout_node? (m : WriteMask) :
    ∃ node, m.layout.node? = some node ∧ ∀ env, readMask env node = .ok m.letters := by
  unfold WriteMask.layout
  split
  next hempty =>
    refine ⟨.list [], rfl, fun env => ?_⟩
    rw [show m.letters = "" from by simpa using hempty]
    rfl
  next hne =>
    have hcomponents : Component.all.filter m.contains ≠ [] := by
      intro hnil
      apply hne
      rw [WriteMask.letters, hnil]
      rfl
    have hword := node?_symbol (Component.isSymbol_letters hcomponents)
    exact ⟨.list [.symbol m.letters],
      node?_line_some (nodes?_cons_some hword rfl), fun env => rfl⟩

variable {depth : Nat}

section

variable {env : Env} (henv : env.symbols.SelfNamed)

include henv

theorem readRvalue_reread {r : Rvalue} (h : readRvalue env node = .ok r)
    (hfloats : ∀ step ∈ r.walk depth, step.visit.Survives) : r.Rereads env :=
  (readRvalue_made h).reread henv hfloats

theorem option_reread {o : Option Rvalue} (h : ∀ r ∈ o, r.Made env)
    (hfloats : ∀ step ∈ Rvalue.walkOption depth o, step.visit.Survives) :
    ∀ r ∈ o, r.Rereads env := by
  rintro r ⟨⟩
  exact (h r rfl).reread henv hfloats

/-- An assignment is read back from its layout. -/
theorem readAssignment_reread {a : Assignment} (h : readAssignment env node = .ok a)
    (hfloats : ∀ step ∈ a.walk depth, step.visit.Survives) :
    ∃ node', a.layout.node? = some node' ∧ readAssignment env node' = .ok a := by
  obtain ⟨condition, mask, lhs, rhs, c, letters, target, value, rfl, hc, -, hlhs, hrhs, ha⟩ :=
    readAssignment_eq_ok.mp h
  obtain ⟨m, rfl, hfits⟩ := Assignment.withMask_eq_ok ha
  simp only [Assignment.walk, mem_append] at hfloats
  have hmade := (Env.gives_made _).readOptional trivial hc
  obtain ⟨cn, hcn, hc'⟩ := readOptional_reread (option_reread henv hmade fun step hstep =>
    hfloats step (.inl (.inl hstep)))
  obtain ⟨mn, hmn, hm⟩ := m.layout_node?
  obtain ⟨ln, hln, hl⟩ := readRvalue_reread henv hlhs fun step hstep =>
    hfloats step (.inl (.inr hstep))
  obtain ⟨rn, hrn, hr⟩ := readRvalue_reread henv hrhs fun step hstep => hfloats step (.inr hstep)
  refine ⟨.list [.symbol "assign", cn, mn, ln, rn], ?_, ?_⟩
  · exact node?_line_some (nodes?_cons_some node?_keyword
      (nodes?_cons_some hcn (nodes?_cons_some hmn
        (nodes?_cons_some hln (nodes?_cons_some hrn rfl)))))
  · exact readAssignment_eq_ok.mpr ⟨_, _, _, _, _, _, _, _, rfl, hc', hm env, hl, hr,
      Assignment.withMask_letters hfits⟩

theorem readReturn_reread {parts : List Node} {value : Option Rvalue}
    (h : readReturn env (.list (.symbol "return" :: parts)) = .ok value)
    (hfloats : ∀ step ∈ Rvalue.walkOption depth value, step.visit.Survives) :
    ∃ parts', nodes? (value.map (·.layout)).toList = some parts'
      ∧ readReturn env (.list (.symbol "return" :: parts')) = .ok value := by
  obtain ⟨-, rfl⟩ | ⟨node, r, -, hr, rfl⟩ := readReturn_eq_ok.mp h
  · exact ⟨[], rfl, rfl⟩
  · obtain ⟨node', hnode', hr'⟩ := readRvalue_reread henv hr hfloats
    exact ⟨[node'], nodes?_cons_some hnode' rfl,
      readReturn_eq_ok.mpr (.inr ⟨node', r, rfl, hr', rfl⟩)⟩

theorem readControl_reread {o : Option Rvalue} (h : readControl env node = .ok o)
    (hfloats : ∀ step ∈ Rvalue.walkOption depth o, step.visit.Survives) :
    ∃ node', (line (o.map (·.layout)).toList).node? = some node'
      ∧ readControl env node' = .ok o := by
  obtain ⟨-, rfl⟩ | ⟨inner, r, -, hr, rfl⟩ := readControl_eq_ok.mp h
  · exact ⟨.list [], rfl, rfl⟩
  · obtain ⟨inner', hinner', hr'⟩ := readRvalue_reread henv hr hfloats
    exact ⟨.list [inner'], node?_line_some (nodes?_cons_some hinner' rfl),
      readControl_eq_ok.mpr (.inr ⟨inner', r, rfl, hr', rfl⟩)⟩

/-- The controls of a loop are read back from their layout. -/
theorem readControls_reread {whole counter start stop increment : Node} {c : Controls}
    (h : readControls env whole counter start stop increment = .ok c)
    (hfloats : ∀ step ∈ c.walk depth, step.visit.Survives) :
    ∃ counter' start' stop' increment',
      nodes? c.layouts = some [counter', start', stop', increment']
      ∧ readControls env whole counter' start' stop' increment' = .ok c := by
  obtain ⟨hcounter, hstart, hincrement, terminator, hstop, hcomparison, hvalue⟩ :=
    readControls_eq_ok.mp h
  simp only [Controls.walk, mem_append] at hfloats
  obtain ⟨sn, hsn, hs⟩ := readControl_reread henv hstart fun step hstep =>
    hfloats step (.inl (.inl (.inr hstep)))
  obtain ⟨dn, hdn, hd⟩ := readControl_reread henv hincrement fun step hstep =>
    hfloats step (.inr hstep)
  obtain ⟨cn, hcn, hc⟩ : ∃ node, (line (c.counter.map fun v => .word v.name).toList).node?
      = some node ∧ readCounter env node = .ok c.counter := by
    obtain ⟨-, hnone⟩ | ⟨name, v, -, hv, hsome⟩ := readCounter_eq_ok.mp hcounter
    · rw [hnone]
      exact ⟨.list [], rfl, rfl⟩
    · obtain ⟨rfl, hname⟩ := (SymbolTable.selfNamed_iff.mp henv).findVariable? hv
      rw [hsome]
      exact ⟨.list [.symbol v.name],
        node?_line_some (nodes?_cons_some (node?_symbol hname) rfl),
        readCounter_eq_ok.mpr (.inr ⟨v.name, v, rfl, hv, rfl⟩)⟩
  -- the last two controls: what the loop stops at, and the increment
  have hlast : nodes? [.line (c.increment.map (·.layout)).toList] = some [dn] :=
    nodes?_cons_some hdn rfl
  obtain ⟨tn, htn, ht⟩ : ∃ node, nodes? (c.layouts.drop 2) = some [node, dn]
      ∧ readTerminator env node = .ok terminator := by
    unfold Controls.layouts
    obtain ⟨-, rfl⟩ | ⟨name, inner, op, r, -, hop, hr, rfl⟩ := readTerminator_eq_ok.mp hstop
    · rw [hcomparison, hvalue]
      exact ⟨.list [], nodes?_cons_some rfl hlast, rfl⟩
    · rw [hvalue] at hfloats
      obtain ⟨inner', hinner', hr'⟩ := readRvalue_reread henv hr fun step hstep =>
        hfloats step (.inl (.inr hstep))
      rw [hcomparison, hvalue]
      obtain ⟨-, hcmp⟩ := comparison?_eq_some.mp hop
      have hline : (line [.word op.name, r.layout]).node?
          = some (.list [.symbol op.name, inner']) :=
        node?_line_some (nodes?_cons_some (node?_symbol op.isSymbol_name)
          (nodes?_cons_some hinner' rfl))
      refine ⟨.list [.symbol op.name, inner'], nodes?_cons_some hline hlast, ?_⟩
      exact readTerminator_eq_ok.mpr (.inr ⟨op.name, inner', op, r, rfl,
        comparison?_eq_some.mpr ⟨op.ofName?_name, hcmp⟩, hr', rfl⟩)
  refine ⟨cn, sn, tn, dn, ?_, ?_⟩
  · exact nodes?_cons_some hcn (nodes?_cons_some hsn htn)
  · exact readControls_eq_ok.mpr ⟨hc, hs, hd, terminator, ht, hcomparison, hvalue⟩

end

/-! ## §4. Instructions -/

/-- The floats in what is read survive their text. -/
def Reading.Survives : Reading → Prop
  | .instruction _ i => ∃ depth, ∀ step ∈ walkAll depth i.toList, step.visit.Survives
  | .instructions _ is => ∃ depth, ∀ step ∈ walkAll depth is, step.visit.Survives
  | .function _ _ _ entries | .signatures _ _ _ _ entries =>
    ∀ e ∈ entries, ∃ depth, ∀ step ∈ walkAll depth (e.body.getD []),
      step.visit.Survives
  | .signature _ _ _ _ e =>
    ∃ depth, ∀ step ∈ walkAll depth (e.body.getD []), step.visit.Survives

/-- What is read outside of a scan is read from its own text too, between the same states. -/
def Reading.Rereads (cx : Context) (s s' : ReadState) : Reading → Prop
  | .instruction _ i => ∀ j ∈ i, ∃ node, j.layout.node? = some node
      ∧ Reads cx (.instruction node (some j)) s s'
  | .instructions nodes is => is.length = nodes.length
      ∧ ∃ nodes', nodes? (layouts is) = some nodes'
        ∧ Reads cx (.instructions nodes' is) s s'
  | .function scan parts slot entries => scan = false →
      ∀ name rest, parts = .symbol name :: rest →
        ∃ nodes, nodes? (Signature.layouts (entries.map (·.signature))) = some nodes
          ∧ Reads cx (.function false (.symbol name :: nodes) slot entries) s s'
  | .signatures scan slot name _ entries => scan = false →
      ∃ nodes, nodes? (Signature.layouts (entries.map (·.signature))) = some nodes
        ∧ Reads cx (.signatures false slot name nodes entries) s s'
  | .signature scan slot name _ e => scan = false →
      ∃ node, e.signature.layout.node? = some node
        ∧ Reads cx (.signature false slot name node e) s s'

theorem length_of_nodes? {layouts : List Layout} (h : nodes? layouts = some nodes) :
    nodes.length = layouts.length := by
  induction layouts generalizing nodes with
  | nil =>
    cases h
    rfl
  | cons layout rest ih =>
    obtain ⟨node, others, -, hothers, rfl⟩ := nodes?_cons.mp h
    rw [length_cons, length_cons, ih hothers]

theorem Instruction.layouts_eq (is : List Instruction) :
    layouts is = is.map layout := by
  induction is with
  | nil => rfl
  | cons i is ih => rw [layouts, ih, map_cons]

theorem Signature.layout_node? {sig : Signature} {ty : Node} {declarations : List Node}
    (hty : sig.returnType.layout.node? = some ty)
    (hdeclarations : nodes? (sig.parameters.map (·.value.layout)) = some declarations)
    (hnodes : nodes? (Instruction.layouts sig.body) = some nodes) :
    sig.layout.node? = some (.list [.symbol "signature", ty,
      .list (.symbol "parameters" :: declarations), .list nodes]) := by
  obtain ⟨returnType, parameters, body, isDefined⟩ := sig
  have hhead : nodes? [.word "signature", returnType.layout]
      = some [.symbol "signature", ty] :=
    nodes?_cons_some node?_keyword (nodes?_cons_some hty rfl)
  have hparameters : (rows [.word "parameters"] (parameters.map (·.value.layout))
      false).node? = some (.list (.symbol "parameters" :: declarations)) :=
    node?_rows.mpr ⟨_, _, nodes?_cons_some node?_keyword rfl, hdeclarations, rfl⟩
  exact node?_rows.mpr ⟨_, _, hhead, nodes?_cons_some hparameters
    (nodes?_cons_some (blockLayout_node? hnodes) rfl), rfl⟩

/-- **What is read is read from its own text.**  The text of an instruction, and that of the
    signatures of a function, is read between the states between which they were read. -/
theorem Reads.reread {cx : Context} {reading : Reading} {s s' : ReadState}
    (h : Reads cx reading s s') (hr : reading.Readable) (hflat : reading.Flat)
    (hfloats : reading.Survives) (hs : s.symbols.SelfNamed) : reading.Rereads cx s s' := by
  induction h with
  | jump mode enclosing =>
    rintro _ ⟨⟩
    have hword : IsSymbol mode.name := by
      cases mode <;> decide
    exact ⟨_, node?_symbol hword, .jump mode enclosing⟩
  | @declare cx s node v declaration =>
    rintro _ ⟨⟩
    have henv : (s.env cx).symbols.SelfNamed := hs
    obtain ⟨node', hnode', hread⟩ := readVariable_reread henv hr declaration
    exact ⟨node', hnode', .declare hread⟩
  | function inner ih =>
    rintro _ ⟨⟩
  | @assign cx s node a assignment =>
    rintro _ ⟨⟩
    have henv : (s.env cx).symbols.SelfNamed := hs
    obtain ⟨depth, hwalk⟩ := hfloats
    have hwalk' : ∀ step ∈ a.walk (depth + 1), step.visit.Survives := fun step hstep =>
      hwalk step (by simp [walkAll, walk, hstep])
    obtain ⟨node', hnode', hread⟩ := readAssignment_reread henv assignment hwalk'
    exact ⟨node', hnode', .assign hread⟩
  | @branch cx s s1 s' node thenNodes elseNodes condition thenBody elseBody value first second ih1
      ih2 =>
    rintro _ ⟨⟩
    have henv : (s.env cx).symbols.SelfNamed := hs
    obtain ⟨depth, hwalk⟩ := hfloats
    simp only [Option.toList, walkAll, walk, List.append_nil,
      mem_cons, mem_append] at hwalk
    have hparts := Node.readable_list.mp hr
    have hthen := Node.readable_list.mp (hparts (.list thenNodes) (by simp))
    have helse := Node.readable_list.mp (hparts (.list elseNodes) (by simp))
    obtain ⟨hflat1, hflat2⟩ := Node.isFlat_branch.mp hflat.2
    obtain ⟨node', hnode', hread⟩ := readRvalue_reread henv value fun step hstep =>
      hwalk step (.inr (.inl (.inl hstep)))
    obtain ⟨-, ns1, hns1, hread1⟩ := ih1 hthen hflat1
      ⟨depth + 2, fun step hstep => hwalk step (.inr (.inl (.inr (.inr hstep))))⟩ hs
    obtain ⟨-, ns2, hns2, hread2⟩ := ih2 helse hflat2
      ⟨depth + 2, fun step hstep => hwalk step (.inr (.inr (.inr hstep)))⟩
      (first.selfNamed hthen hs)
    refine ⟨_, ?_, .branch hread hread1 hread2⟩
    exact node?_line_some (nodes?_cons_some node?_keyword
      (nodes?_cons_some hnode' (nodes?_cons_some (blockLayout_node? hns1)
        (nodes?_cons_some (blockLayout_node? hns2) rfl))))
  | @loop cx s s' whole counter start stop increment nodes controls body header inner ih =>
    rintro _ ⟨⟩
    have henv : (s.env cx).symbols.SelfNamed := hs
    obtain ⟨depth, hwalk⟩ := hfloats
    simp only [Option.toList, walkAll, walk, List.append_nil,
      mem_cons, mem_append] at hwalk
    have hparts := Node.readable_list.mp hr
    have hbody := Node.readable_list.mp (hparts (.list nodes) (by simp))
    obtain ⟨cn, sn, tn, dn, hlayouts, hread⟩ := readControls_reread henv header
      fun step hstep => hwalk step (.inr (.inl hstep))
    obtain ⟨-, ns, hns, hread'⟩ := ih hbody hflat.2
      ⟨depth + 2, fun step hstep => hwalk step (.inr (.inr (.inr hstep)))⟩ hs
    refine ⟨_, ?_, .loop hread hread'⟩
    exact node?_line_some (nodes?_cons_some node?_keyword
      (nodes?_append hlayouts (nodes?_cons_some (blockLayout_node? hns) rfl)))
  | @ret cx s parts value returned =>
    rintro _ ⟨⟩
    have henv : (s.env cx).symbols.SelfNamed := hs
    obtain ⟨depth, hwalk⟩ := hfloats
    have hwalk' : ∀ step ∈ Rvalue.walkOption (depth + 1) value, step.visit.Survives :=
      fun step hstep => hwalk step (by simp [walkAll, walk, hstep])
    obtain ⟨parts', hparts', hread⟩ := readReturn_reread henv returned hwalk'
    refine ⟨_, ?_, .ret hread⟩
    exact node?_line_some (nodes?_cons_some node?_keyword hparts')
  | @rvalue cx s node r value =>
    rintro _ ⟨⟩
    have henv : (s.env cx).symbols.SelfNamed := hs
    obtain ⟨depth, hwalk⟩ := hfloats
    have hwalk' : ∀ step ∈ r.walk depth, step.visit.Survives := fun step hstep =>
      hwalk step (by simp [walkAll, walk, hstep])
    obtain ⟨node', hnode', hread⟩ := readRvalue_reread henv value hwalk'
    exact ⟨node', hnode', .rvalue hread⟩
  | nil => exact ⟨rfl, [], rfl, .nil⟩
  | @cons cx s s1 s' node rest i is first others ih1 ih2 =>
    obtain ⟨hfun, hnode, hrest⟩ := Node.isFlatBlock_cons.mp hflat
    obtain ⟨j, rfl⟩ := first.exists_instruction hfun
    obtain ⟨depth, hwalk⟩ := hfloats
    simp only [Option.toList, singleton_append, walkAll, mem_append]
      at hwalk
    have hr1 := hr node mem_cons_self
    obtain ⟨node', hnode', hread⟩ := ih1 hr1 ⟨hfun, hnode⟩
      ⟨depth, fun step hstep => hwalk step (.inl (by
        simpa [walkAll] using hstep))⟩ hs j rfl
    obtain ⟨hlen, nodes', hnodes', hreads⟩ := ih2 (fun n hn => hr n (mem_cons_of_mem _ hn))
      hrest ⟨depth, fun step hstep => hwalk step (.inr hstep)⟩ (first.selfNamed hr1 hs)
    refine ⟨?_, node' :: nodes', nodes?_cons_some hnode' hnodes', .cons hread hreads⟩
    simp [hlen]
  | @overloads cx s s1 s' scan name first rest slot entries place inner ih =>
    intro hscan name' rest' hparts
    cases hparts
    have hname : IsSymbol name := hr (.symbol name) mem_cons_self
    obtain ⟨rfl, rfl⟩ := Prod.mk.inj place
    obtain ⟨nodes, hnodes, hread⟩ := ih
      ⟨hname, (forall_mem_cons.mp hr).2⟩
      (forall_mem_cons.mp hflat).2 hfloats
      (ReadState.selfNamed_slot hs hname (scopes_ne_nil_of_overloads inner)) hscan
    refine ⟨nodes, hnodes, ?_⟩
    cases hread with
    | more head others => exact .overloads rfl (.more head others)
    | noMore => cases inner
  | noMore => exact fun _ => ⟨[], rfl, .noMore⟩
  | @more cx s s1 s' scan slot name node rest entry entries first others ih1 ih2 =>
    intro hscan
    have hr1 : (Reading.signature scan slot name node entry).Readable :=
      ⟨hr.1, hr.2 node mem_cons_self⟩
    obtain ⟨node', hnode', hread⟩ := ih1 hr1 (hflat node mem_cons_self)
      (hfloats entry mem_cons_self) hs hscan
    obtain ⟨nodes', hnodes', hreads⟩ := ih2
      ⟨hr.1, fun n hn => hr.2 n (mem_cons_of_mem _ hn)⟩
      (fun n hn => hflat n (mem_cons_of_mem _ hn))
      (fun e he => hfloats e (mem_cons_of_mem _ he)) (first.selfNamed hr1 hs) hscan
    exact ⟨node' :: nodes', nodes?_cons_some hnode' hnodes', .more hread hreads⟩
  | @prototype cx s s1 s2 scan slot name ty declarations nodes returnType parameters index type
      declares registers silent =>
    rintro rfl
    have henv : (s.env cx).symbols.SelfNamed := hs
    obtain ⟨hdeclarations, -⟩ := readable_signature hr.2
    obtain ⟨declarations', hlayouts, hdeclares⟩ := declares_reread declares hdeclarations hs.push
    refine ⟨_, Signature.layout_node? (layout_of_readType henv type) hlayouts rfl, ?_⟩
    exact .prototype type hdeclares registers (.inr rfl)
  | @definition cx s s1 s2 s3 slot name ty declarations nodes returnType parameters index body type
      declares registers nonempty undefined inner bound ih =>
    rintro -
    have henv : (s.env cx).symbols.SelfNamed := hs
    obtain ⟨hdeclarations, hbody⟩ := readable_signature hr.2
    obtain ⟨declarations', hlayouts, hdeclares⟩ := declares_reread declares hdeclarations hs.push
    have hs2 : s2.symbols.SelfNamed := SymbolTable.selfNamed_iff.mpr
      (ReadState.names_registers registers (ReadState.names_declares (fun _ h => ⟨rfl, h⟩) declares
        hdeclarations (SymbolTable.selfNamed_iff.mp hs.push)))
    obtain ⟨hlen, nodes', hnodes', hread⟩ := ih hbody hflat hfloats hs2
    -- as many instructions are written as were read, so the body is not empty either
    have hne : nodes' ≠ [] := by
      rintro rfl
      have hlen' := length_of_nodes? hnodes'
      rw [layouts_eq, length_map, hlen] at hlen'
      exact nonempty (length_eq_zero_iff.mp hlen'.symm)
    refine ⟨_, Signature.layout_node? (layout_of_readType henv type) hlayouts hnodes', ?_⟩
    exact .definition type hdeclares registers hne undefined hread bound

end Shading
