/-
  Shading.Proofs.Read.WellFormed — every module that the reader returns is well formed.

  The functions that make nodes check what they are given, and the reader itself fills in the rest:
  offsets, loop controls, the overload that a call means.  `Rvalue.WellFormed` and
  `Instruction.WellFormed` say, node by node and without a word about the reader, what a module may
  rely on afterwards.  A call is well formed in a symbol table: the overload it means has the types
  of its arguments there.
-/
import Shading.Proofs.Constant
import Shading.Proofs.Read.Origin

namespace Shading

open List

/-! ## §1. Well-formed nodes -/

/-- The components are of the kind that the type has, and an array has as many elements of its
    element type as the type says. -/
inductive Constant.WellFormed : Constant → Prop
  | float {ty : Ty} {values : Buffer Single} (base : ty.base = .float) : WellFormed ⟨ty, .float values⟩
  | int {ty : Ty} {values : Buffer Int32} (base : ty.base = .int) : WellFormed ⟨ty, .int values⟩
  | uint {ty : Ty} {values : Buffer UInt32} (base : ty.base = .uint) : WellFormed ⟨ty, .uint values⟩
  | bool {ty : Ty} {values : Buffer Bool} (base : ty.base = .bool) : WellFormed ⟨ty, .bool values⟩
  | array {element : Ty} {length : UInt32} {elements : List Constant}
      (count : elements.length = length.toNat) (types : ∀ e ∈ elements, e.ty = element)
      (parts : ∀ e ∈ elements, WellFormed e) : WellFormed ⟨.array element length, .array elements⟩

/-- The type is that of an element, a column or a component of a value of the other type. -/
def Ty.IsPartOf (part whole : Ty) : Prop :=
  whole.element? = some part
    ∨ (whole.isMatrix = true ∧ part = whole.columnType)
    ∨ (whole.isVector = true ∧ part = whole.scalarType)

/-- The type is that of what a lookup through the sampler returns: a number if it compares, else
    four of the sampler's components. -/
def Sampler.Returns (s : Sampler) (ty : Ty) : Prop :=
  if s.shadow then ty = .scalar .float else Ty.instance? s.result.base 4 1 = .ok ty

/-- The value is well formed where functions have the overloads that they have in the table. -/
inductive Rvalue.WellFormed (table : SymbolTable) : Rvalue → Prop
  /-- An operator has as many operands as it takes. -/
  | expression {op : Operator} {ty : Ty} {operands : List Rvalue} (arity : operands.length = op.arity)
      (parts : ∀ x ∈ operands, WellFormed table x) : WellFormed table (.expression op ty operands)
  /-- Components are chosen from a scalar or vector that has them. -/
  | swizzle {value : Rvalue} {mask : SwizzleMask} {ty : Ty}
      (shape : value.ty.isScalar = true ∨ value.ty.isVector = true)
      (range : ∀ c ∈ mask.components, c.index < value.ty.rows)
      (type : Ty.instance? value.ty.base mask.size 1 = .ok ty) (part : WellFormed table value) :
      WellFormed table (.swizzle value mask ty)
  | constant {c : Constant} (value : c.WellFormed) : WellFormed table (.constant c)
  /-- A variable is neither of the void type nor of a function type. -/
  | var {v : Var} (value : v.ty.base ≠ .void) (data : v.ty.base ≠ .function) :
      WellFormed table (.dereference (.var v))
  /-- An index is an integer and picks out a part. -/
  | index {base index : Rvalue} {ty : Ty} (type : ty.IsPartOf base.ty)
      (scalar : index.ty.isScalar = true) (integer : index.ty.isInteger = true)
      (part : WellFormed table base) (place : WellFormed table index) :
      WellFormed table (.dereference (.index base index ty))
  | field {base : Rvalue} {name : String} {ty : Ty} (type : base.ty.fieldType? name = some ty)
      (part : WellFormed table base) : WellFormed table (.dereference (.field base name ty))
  /-- A call means an overload whose parameters have the types of the arguments. -/
  | call {name : String} {p : Prototype} {i : Nat} {o : Overload} {args : List Rvalue}
      (bound : table.findFunction? name = some p) (overload : p.overloads[i]? = some o)
      (types : o.types = args.map (·.ty)) (parts : ∀ x ∈ args, WellFormed table x) :
      WellFormed table (.call p.name i o.returnType args)
  /-- A lookup goes through a sampler. -/
  | texture {t : Texture} {s : Sampler} (source : t.sampler.ty.sampler? = some s)
      (type : s.Returns t.ty) (through : WellFormed table (.dereference t.sampler))
      (place : WellFormed table t.coordinate) (levels : ∀ x ∈ t.lookup.operands, WellFormed table x)
      (divisor : ∀ x ∈ t.projector, WellFormed table x)
      (reference : ∀ x ∈ t.comparator, WellFormed table x) : WellFormed table (.texture t)

/-- The parts of a well-formed value are well formed. -/
theorem Rvalue.WellFormed.parts {table : SymbolTable} {r : Rvalue} (h : r.WellFormed table) :
    ∀ x ∈ r.parts, x.WellFormed table := by
  cases h with
  | expression arity parts => exact parts
  | call bound overload types parts => exact parts
  | constant | var => simp [Rvalue.parts]
  | swizzle shape range type part | field type part => simpa [Rvalue.parts] using part
  | index type scalar integer part place => simpa [Rvalue.parts] using ⟨part, place⟩
  | texture source type through place levels divisor reference =>
    simp only [Rvalue.parts, forall_mem_append, forall_mem_cons, Option.mem_toList]
    exact ⟨⟨⟨through, place, levels⟩, divisor⟩, reference⟩

/-- An assignment writes components that its left-hand side has, and some exactly if it is a scalar
    or vector. -/
structure Assignment.WellFormed (table : SymbolTable) (a : Assignment) : Prop where
  condition : ∀ x ∈ a.condition, x.WellFormed table
  lhs : (Rvalue.dereference a.lhs).WellFormed table
  rhs : a.rhs.WellFormed table
  subset : a.mask.bits &&& (fullMask a.lhs.ty).bits = a.mask.bits
  nonzero : a.mask.bits ≠ 0 ↔ a.lhs.ty.isScalar = true ∨ a.lhs.ty.isVector = true

/-- A loop that ends at a value compares with it, and compares with nothing else. -/
structure Controls.WellFormed (table : SymbolTable) (c : Controls) : Prop where
  start : ∀ x ∈ c.start, x.WellFormed table
  stop : ∀ x ∈ c.stop, x.WellFormed table
  increment : ∀ x ∈ c.increment, x.WellFormed table
  paired : c.comparison.isSome = c.stop.isSome
  compares : ∀ op ∈ c.comparison, op.isComparison = true

/-- The instruction is well formed, and so is everything in it. -/
inductive Instruction.WellFormed (table : SymbolTable) : Instruction → Prop
  | declare (v : Var) : WellFormed table (.declare v)
  | function {name : String} {signatures : List Signature}
      (bodies : ∀ sig ∈ signatures, ∀ i ∈ sig.body, WellFormed table i) :
      WellFormed table (.function name signatures)
  | assign {a : Assignment} (parts : a.WellFormed table) : WellFormed table (.assign a)
  | ret {value : Option Rvalue} (part : ∀ x ∈ value, x.WellFormed table) :
      WellFormed table (.ret value)
  | branch {condition : Rvalue} {thenBody elseBody : List Instruction}
      (part : condition.WellFormed table) (first : ∀ i ∈ thenBody, WellFormed table i)
      (second : ∀ i ∈ elseBody, WellFormed table i) :
      WellFormed table (.branch condition thenBody elseBody)
  | loop {id : LoopId} {controls : Controls} {body : List Instruction}
      (parts : controls.WellFormed table) (inner : ∀ i ∈ body, WellFormed table i) :
      WellFormed table (.loop id controls body)
  | jump (mode : JumpMode) (target : LoopId) : WellFormed table (.jump mode target)
  | rvalue {r : Rvalue} (part : r.WellFormed table) : WellFormed table (.rvalue r)

/-! ## §2. Values that were made -/

variable {env : Env}

/-- A constant that was made is well-formed. -/
theorem Constant.Made.wellFormed {c : Constant} (h : c.Made env) : c.WellFormed := by
  induction h with
  | float type finite made =>
    obtain ⟨rfl, hbase, -⟩ := Constant.eq_of_made made
    exact .float hbase
  | int type made =>
    obtain ⟨rfl, hbase, -⟩ := Constant.eq_of_made made
    exact .int hbase
  | uint type made =>
    obtain ⟨rfl, hbase, -⟩ := Constant.eq_of_made made
    exact .uint hbase
  | bool type made =>
    obtain ⟨rfl, hbase, -⟩ := Constant.eq_of_made made
    exact .bool hbase
  | array type parts made ih =>
    unfold Constant.array at made
    split at made
    · split at made
      next hshape =>
        cases made
        obtain ⟨hcount, htypes⟩ := hshape
        refine .array hcount ?_ ih
        intro e he
        exact of_decide_eq_true (all_eq_true.mp htypes e he)
      next => cases made
    · cases made

theorem instance?_components (kind : Scalar) {n : Nat} (hpos : 0 < n) (hle : n ≤ 4) :
    Ty.instance? kind.base n 1 = .ok (.ofComponents kind n) := by
  have hrows : ¬ (n = 0 ∨ 4 < n) := by omega
  have hkind : kind.base.scalar? = some kind := by cases kind <;> rfl
  unfold Ty.instance? Ty.ofShape
  rw [if_neg hrows, hkind]
  rfl

theorem Sampler.returns_resultType (s : Sampler) : s.Returns (Texture.resultType s) := by
  unfold Sampler.Returns Texture.resultType
  by_cases hshadow : s.shadow = true
  · rw [if_pos hshadow, if_pos hshadow]
  · rw [if_neg hshadow, if_neg hshadow]
    exact instance?_components s.result (by omega) (by omega)

theorem isPartOf_of_partType? {part whole : Ty} (h : Dereference.partType? whole = some part) :
    part.IsPartOf whole := by
  unfold Dereference.partType? at h
  split at h
  · cases h
    exact .inl rfl
  · cases h
    exact .inr (.inl ⟨rfl, rfl⟩)
  · cases h
    exact .inr (.inr ⟨rfl, rfl⟩)
  · cases h

/-- **A value is well formed where it was made.** -/
theorem Rvalue.Made.wellFormed {r : Rvalue} (h : r.Made env) : r.WellFormed env.symbols := by
  induction h with
  | expression type parts made ih =>
    obtain ⟨harity, rfl⟩ := mkExpression_eq_ok.mp made
    exact .expression harity ih
  | @swizzle value mask r part made ih =>
    obtain ⟨kind, hkind, hrange, rfl⟩ := mkSwizzle_eq_ok made
    have hpos : 0 < mask.size := length_pos_iff.mpr mask.nonempty
    have htype := instance?_components kind hpos mask.short
    -- the base of the value is that of its components
    rcases hkind with hty | ⟨size, hty⟩
    · refine .swizzle (.inl ?_) hrange ?_ ih
      · rw [hty]
        rfl
      · rw [hty]
        exact htype
    · refine .swizzle (.inr ?_) hrange ?_ ih
      · rw [hty]
        rfl
      · rw [hty]
        exact htype
  | constant made => exact .constant made.wellFormed
  | @var name v d bound made =>
    obtain ⟨rfl, hvoid, hfunction⟩ := mkVariable_eq_ok made
    refine .var ?_ ?_
    · cases hty : v.ty with
      | void => exact absurd hty hvoid
      | scalar kind => cases kind <;> exact nofun
      | vector kind size => cases kind <;> exact nofun
      | _ => exact nofun
    · cases hty : v.ty with
      | function serial result parameters =>
        rw [hty] at hfunction
        cases hfunction
      | scalar kind => cases kind <;> exact nofun
      | vector kind size => cases kind <;> exact nofun
      | _ => exact nofun
  | index part place made ih1 ih2 =>
    obtain ⟨ty, hty, hindex, rfl⟩ := mkIndex_eq_ok made
    rw [Bool.and_eq_true] at hindex
    exact .index (isPartOf_of_partType? hty) hindex.1 hindex.2 ih1 ih2
  | call parts bound chosen overload ih =>
    obtain ⟨o, ho, htypes⟩ := Prototype.matching?_eq_some chosen
    cases ho.symm.trans overload
    exact .call bound overload htypes ih
  | texture source place levels divisor reference unfiltered made ih1 ih2 ih3 ih4 ih5 =>
    obtain ⟨properties, hproperties, rfl⟩ := mkTexture_eq_ok made
    exact .texture hproperties properties.returns_resultType ih1 ih2 ih3 ih4 ih5

/-! ## §3. Tables that grow -/

variable {t u : SymbolTable}

/-- **What is well formed stays so while overloads are added and parameters replaced.** -/
theorem Rvalue.WellFormed.mono (hgrows : t.Grows u) {r : Rvalue} (h : r.WellFormed t) :
    r.WellFormed u := by
  induction h with
  | expression arity parts ih => exact .expression arity ih
  | swizzle shape range type part ih => exact .swizzle shape range type ih
  | constant value => exact .constant value
  | var value data => exact .var value data
  | index type scalar integer part place ih1 ih2 => exact .index type scalar integer ih1 ih2
  | field type part ih => exact .field type ih
  | @call name p i o args bound overload types parts ih =>
    -- the overload is still at its place, with the types it had
    obtain ⟨q, hq, hpq⟩ := hgrows name p bound
    obtain ⟨o', ho', htypes, hreturn⟩ := hpq.overload i o overload
    rw [← hpq.name, ← hreturn]
    exact .call hq ho' (htypes.trans types) ih
  | texture source type through place levels divisor reference ih1 ih2 ih3 ih4 ih5 =>
    exact .texture source type ih1 ih2 ih3 ih4 ih5

theorem Assignment.WellFormed.mono (hgrows : t.Grows u) {a : Assignment} (h : a.WellFormed t) :
    a.WellFormed u :=
  ⟨fun x hx => (h.condition x hx).mono hgrows, h.lhs.mono hgrows, h.rhs.mono hgrows, h.subset,
    h.nonzero⟩

theorem Controls.WellFormed.mono (hgrows : t.Grows u) {c : Controls} (h : c.WellFormed t) :
    c.WellFormed u :=
  ⟨fun x hx => (h.start x hx).mono hgrows, fun x hx => (h.stop x hx).mono hgrows,
    fun x hx => (h.increment x hx).mono hgrows, h.paired, h.compares⟩

/-- Well-formedness survives a growing table. -/
theorem Instruction.WellFormed.mono (hgrows : t.Grows u) {i : Instruction} (h : i.WellFormed t) :
    i.WellFormed u := by
  induction h with
  | declare v => exact .declare v
  | function bodies ih => exact .function ih
  | assign parts => exact .assign (parts.mono hgrows)
  | ret part => exact .ret fun x hx => (part x hx).mono hgrows
  | branch part first second ih1 ih2 => exact .branch (part.mono hgrows) ih1 ih2
  | loop parts inner ih => exact .loop (parts.mono hgrows) ih
  | jump mode target => exact .jump mode target
  | rvalue part => exact .rvalue (part.mono hgrows)

/-! ## §4. Statements without blocks -/

theorem readAssignment_wellFormed {node : Node} {a : Assignment}
    (h : readAssignment env node = .ok a) : a.WellFormed env.symbols := by
  obtain ⟨hcondition, hlhs, hrhs, hfits⟩ := readAssignment_made h
  have hfull := (Assignment.maskFits_fullMask a.lhs.ty).small
  exact ⟨fun x hx => (hcondition x hx).wellFormed, hlhs.wellFormed, hrhs.wellFormed,
    hfits.bits_subset hfull, hfits.nonzero⟩

theorem readControls_wellFormed {whole counter start stop increment : Node} {c : Controls}
    (h : readControls env whole counter start stop increment = .ok c) :
    c.WellFormed env.symbols := by
  obtain ⟨-, hstart, hstop, hincrement⟩ := readControls_made h
  obtain ⟨-, -, -, terminator, hterminator, hcomparison, hvalue⟩ := readControls_eq_ok.mp h
  refine ⟨fun x hx => (hstart x hx).wellFormed, fun x hx => (hstop x hx).wellFormed,
    fun x hx => (hincrement x hx).wellFormed, ?_, ?_⟩
  · rw [hcomparison, hvalue, Option.isSome_map, Option.isSome_map]
  · intro op hop
    rw [hcomparison] at hop
    obtain ⟨-, rfl⟩ | ⟨name, inner, op', x, -, hname, -, rfl⟩ := readTerminator_eq_ok.mp hterminator
    · cases hop
    · cases hop
      exact (comparison?_eq_some.mp hname).2

/-! ## §5. Everything that is read -/

variable {cx : Context}

/-- What was read is well formed. -/
def Reading.WellFormed (table : SymbolTable) : Reading → Prop
  | .instruction _ i => ∀ j ∈ i, j.WellFormed table
  | .instructions _ is => ∀ i ∈ is, i.WellFormed table
  | _ => True

variable {s s' : ReadState}

/-- **Whatever is read is well formed.** -/
theorem Reads.wellFormed {reading : Reading} (h : Reads cx reading s s')
    (hs : s.Steady cx.globalDepth) : reading.WellFormed s'.symbols := by
  induction h with
  | jump mode enclosing =>
    intro j hj
    cases hj
    exact .jump mode _
  | declare declaration =>
    intro j hj
    cases hj
    exact .declare _
  | function inner ih =>
    intro j hj
    cases hj
  | assign assignment =>
    intro j hj
    cases hj
    exact .assign (readAssignment_wellFormed assignment)
  | branch value first second ih1 ih2 =>
    obtain ⟨hs1, hgrows1⟩ := first.steady trivial hs
    obtain ⟨-, hgrows2⟩ := second.steady trivial hs1
    intro j hj
    cases hj
    exact .branch ((readRvalue_made value).wellFormed.mono (hgrows1.trans hgrows2))
      (fun i hi => (ih1 hs i hi).mono hgrows2) (ih2 hs1)
  | @loop cx s s' whole counter start stop increment nodes controls body header inner ih =>
    have htaken : s.takeLoop.Steady cx.globalDepth := hs.of_symbols rfl rfl
    obtain ⟨-, hgrows⟩ := inner.steady trivial htaken
    intro j hj
    cases hj
    have hcontrols : controls.WellFormed s.symbols := readControls_wellFormed header
    exact .loop (hcontrols.mono hgrows) (ih htaken)
  | ret returned =>
    intro j hj
    cases hj
    exact .ret fun x hx => (readReturn_made returned x hx).wellFormed
  | rvalue value =>
    intro j hj
    cases hj
    exact .rvalue (readRvalue_made value).wellFormed
  | nil => exact nofun
  | cons first others ih1 ih2 =>
    obtain ⟨hs1, -⟩ := first.steady trivial hs
    obtain ⟨-, hgrows2⟩ := others.steady trivial hs1
    intro j hj
    rcases mem_append.mp hj with hj | hj
    · exact (ih1 hs j (Option.mem_toList.mp hj)).mono hgrows2
    · exact ih2 hs1 j hj
  | overloads | noMore | more | prototype | definition => trivial

/-! ## §6. Modules -/

/-- A block that stems from a text is well-formed. -/
theorem Stems.wellFormed {T : String → Ty → Prop} {N : String → String → Prop}
    {block : List Instruction} (h : Stems T N t block) : ∀ i ∈ block, i.WellFormed t := by
  cases h with
  | intro reads outer readable names steady grows =>
    exact fun i hi => (reads.wellFormed steady i hi).mono grows

theorem wellFormed_of_readDocument {u : CompilationUnit} {text : String} {nodes : List Node}
    {scan : Bool} {ir : List Instruction} (hnodes : readExpressions text = .ok nodes)
    (h : ReadM.Yields (Read.readDocument scan (Read.documentNodes nodes)) u.start ir s') :
    ∀ i ∈ ir, i.WellFormed s'.symbols := by
  have hstems := stems_of_readDocument (fun _ _ => trivial) h
    (readable_documentNodes (readExpressions_readable hnodes))
    (CompilationUnit.collects_start u.symbols.names_any)
  intro i hi
  obtain hblock | ⟨name, sigs, rfl, hbodies⟩ := hstems i hi
  · exact hblock.wellFormed i mem_cons_self
  · exact .function fun sig hsig => (hbodies sig hsig).wellFormed

/-- **Every module that is read is well formed.**  Whatever text is read in whatever unit, with a
    scan or without one: each node of the module, at any depth, has the operands, types, masks and
    controls that its kind asks for, and each call means an overload with the types of its arguments
    in the table that the reading leaves behind. -/
theorem readModule_wellFormed (scan : Bool) (u : CompilationUnit) (text : String)
    (ir : List Instruction) (hread : (readModule scan u text).outcome = .ok ir) :
    ∀ i ∈ ir, i.WellFormed (readModule scan u text).after.symbols := by
  obtain ⟨nodes, s', hnodes, hyields⟩ := readModule_eq_ok hread
  rw [readModule_of_yields hnodes hyields]
  exact wellFormed_of_readDocument hnodes hyields

/-- An assignment of one component, and a function that calls itself. -/
def componentAndCall : String :=
  "(declare()vec4 v)(assign()(x)(var_ref v)(swiz y(var_ref v)))" ++
  "(function f(signature void(parameters)((call f()))))"

/-- The text is read, and the module is well formed. -/
theorem readModule_wellFormed_componentAndCall :
    ∃ ir, (readModule true .fresh componentAndCall).outcome = .ok ir
      ∧ ∀ i ∈ ir, i.WellFormed (readModule true .fresh componentAndCall).after.symbols := by
  have hok : (readModule true .fresh componentAndCall).outcome.isOk = true := by decide +kernel
  cases hread : (readModule true .fresh componentAndCall).outcome with
  | error e =>
    rw [hread] at hok
    cases hok
  | ok ir => exact ⟨ir, rfl, readModule_wellFormed true .fresh componentAndCall ir hread⟩

end Shading
