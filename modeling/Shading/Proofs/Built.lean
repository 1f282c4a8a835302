/-
  Shading.Proofs.Built — modules that were put together node by node.

  The functions that make nodes check what they are given; the rest of a module is put together freely.
  `Instruction.Built` says that an instruction came about so.  Few of the checks matter for what can be
  written as source, and `Instruction.Checked` keeps these: a conversion has one operand, a lookup goes
  through a sampler, only array types have array constants, and a loop that ends at a value compares
  with it.  What the reader returns has been checked as well.

  Main results:
    * `Instruction.Built.checked` — what was put together has been checked,
    * `checked_of_readModule` — and so has what was read.
-/
import Shading.Proofs.Constant
import Shading.Proofs.Read.WellFormed

namespace Shading

/-! ## §1. Nodes that were made -/

/-- The value was made by the function that makes its node, from values that were made so.  There is no
    such function for calls. -/
inductive Rvalue.Built : Rvalue → Prop
  | expression {op : Operator} {ty : Ty} {operands : List Rvalue} {r : Rvalue}
      (parts : ∀ x ∈ operands, Built x) (made : Rvalue.mkExpression op ty operands = .ok r) : Built r
  | swizzle {value : Rvalue} {mask : SwizzleMask} {r : Rvalue} (part : Built value)
      (made : Rvalue.mkSwizzle value mask = .ok r) : Built r
  | constant {c : Constant} (value : c.Built) : Built (.constant c)
  | var {v : Var} {d : Dereference} (made : Dereference.mkVariable v = .ok d) : Built (.dereference d)
  | index {base index : Rvalue} {d : Dereference} (part : Built base) (place : Built index)
      (made : Dereference.mkIndex base index = .ok d) : Built (.dereference d)
  | field {base : Rvalue} {name : String} {d : Dereference} (part : Built base)
      (made : Dereference.mkField base name = .ok d) : Built (.dereference d)
  | call (callee : String) (signature : Nat) (ty : Ty) {args : List Rvalue}
      (parts : ∀ x ∈ args, Built x) : Built (.call callee signature ty args)
  /-- Offsets, projector and comparator are added to a lookup that was made. -/
  | texture {lookup : Lookup} {sampler : Dereference} {coordinate : Rvalue} {t : Texture}
      (offsets : Offsets) {projector comparator : Option Rvalue}
      (source : Built (.dereference sampler)) (place : Built coordinate) (levels : ∀ x ∈ lookup.operands, Built x)
      (divisor : ∀ x ∈ projector, Built x) (reference : ∀ x ∈ comparator, Built x)
      (made : Texture.mkTexture lookup sampler coordinate = .ok t) :
      Built (.texture { t with offsets, projector, comparator })

/-- The assignment is one of whole values, or was restricted to some components. -/
inductive Assignment.Built : Assignment → Prop
  | whole {lhs : Dereference} {rhs : Rvalue} {condition : Option Rvalue}
      (target : (Rvalue.dereference lhs).Built) (value : rhs.Built)
      (guard : ∀ x ∈ condition, x.Built) : Built (.whole lhs rhs condition)
  | masked {a a' : Assignment} {text : String} (rest : Built a) (made : a.withMask text = .ok a') :
      Built a'

/-- The controls have no end, or were given one. -/
inductive Controls.Built : Controls → Prop
  | unending (counter : Option Var) {start increment : Option Rvalue} (first : ∀ x ∈ start, x.Built)
      (move : ∀ x ∈ increment, x.Built) : Built { counter, start, increment }
  | ending {c c' : Controls} {comparison : Operator} {stop : Rvalue} (rest : Built c)
      (limit : stop.Built) (made : c.withTerminator comparison stop = .ok c') : Built c'

/-- The instruction was put together from nodes that were made.  Overloads may have any types,
    parameters and bodies, and need not be defined. -/
inductive Instruction.Built : Instruction → Prop
  | declare (v : Var) : Built (.declare v)
  | function (name : String) {signatures : List Signature}
      (bodies : ∀ sig ∈ signatures, ∀ i ∈ sig.body, Built i) : Built (.function name signatures)
  | assign {a : Assignment} (parts : a.Built) : Built (.assign a)
  | ret {value : Option Rvalue} (part : ∀ x ∈ value, x.Built) : Built (.ret value)
  | branch {condition : Rvalue} {thenBody elseBody : List Instruction} (part : condition.Built)
      (first : ∀ i ∈ thenBody, Built i) (second : ∀ i ∈ elseBody, Built i) :
      Built (.branch condition thenBody elseBody)
  | loop (id : LoopId) {controls : Controls} {body : List Instruction} (parts : controls.Built)
      (inner : ∀ i ∈ body, Built i) : Built (.loop id controls body)
  | jump {mode : JumpMode} {enclosing : Option LoopId} {i : Instruction}
      (made : Instruction.mkJump mode enclosing = .ok i) : Built i
  | rvalue {r : Rvalue} (part : r.Built) : Built (.rvalue r)

/-! ## §2. What was checked -/

/-- Array constants are of array types, and nothing else is asked of constants. -/
inductive Constant.Checked : Constant → Prop
  | components {ty : Ty} {value : ConstantValue} (plain : ∀ elements, value ≠ .array elements) :
      Checked ⟨ty, value⟩
  | array {element : Ty} {length : UInt32} {elements : List Constant}
      (parts : ∀ e ∈ elements, Checked e) : Checked ⟨.array element length, .array elements⟩

/-- Conversions have one operand, and lookups go through samplers. -/
inductive Rvalue.Checked : Rvalue → Prop
  | expression {op : Operator} {ty : Ty} {operands : List Rvalue} (arity : operands.length = op.arity)
      (parts : ∀ x ∈ operands, Checked x) : Checked (.expression op ty operands)
  | swizzle {value : Rvalue} {mask : SwizzleMask} {ty : Ty} (part : Checked value) :
      Checked (.swizzle value mask ty)
  | constant {c : Constant} (value : c.Checked) : Checked (.constant c)
  | var (v : Var) : Checked (.dereference (.var v))
  | index {base index : Rvalue} {ty : Ty} (part : Checked base) (place : Checked index) :
      Checked (.dereference (.index base index ty))
  | field {base : Rvalue} {name : String} {ty : Ty} (part : Checked base) :
      Checked (.dereference (.field base name ty))
  | call {callee : String} {signature : Nat} {ty : Ty} {args : List Rvalue}
      (parts : ∀ x ∈ args, Checked x) : Checked (.call callee signature ty args)
  | texture {t : Texture} {s : Sampler} (source : t.sampler.ty.sampler? = some s)
      (through : Checked (.dereference t.sampler)) (place : Checked t.coordinate)
      (levels : ∀ x ∈ t.lookup.operands, Checked x) (divisor : ∀ x ∈ t.projector, Checked x)
      (reference : ∀ x ∈ t.comparator, Checked x) : Checked (.texture t)

/-- The values of an assignment were checked. -/
structure Assignment.Checked (a : Assignment) : Prop where
  condition : ∀ x ∈ a.condition, x.Checked
  lhs : (Rvalue.dereference a.lhs).Checked
  rhs : a.rhs.Checked

/-- A loop that ends at a value compares with it, and compares with nothing else. -/
structure Controls.Checked (c : Controls) : Prop where
  start : ∀ x ∈ c.start, x.Checked
  stop : ∀ x ∈ c.stop, x.Checked
  increment : ∀ x ∈ c.increment, x.Checked
  paired : c.comparison.isSome = c.stop.isSome
  compares : ∀ op ∈ c.comparison, op.isComparison = true

/-- Everything in the instruction was checked. -/
inductive Instruction.Checked : Instruction → Prop
  | declare (v : Var) : Checked (.declare v)
  | function {name : String} {signatures : List Signature}
      (bodies : ∀ sig ∈ signatures, ∀ i ∈ sig.body, Checked i) : Checked (.function name signatures)
  | assign {a : Assignment} (parts : a.Checked) : Checked (.assign a)
  | ret {value : Option Rvalue} (part : ∀ x ∈ value, x.Checked) : Checked (.ret value)
  | branch {condition : Rvalue} {thenBody elseBody : List Instruction} (part : condition.Checked)
      (first : ∀ i ∈ thenBody, Checked i) (second : ∀ i ∈ elseBody, Checked i) :
      Checked (.branch condition thenBody elseBody)
  | loop {id : LoopId} {controls : Controls} {body : List Instruction} (parts : controls.Checked)
      (inner : ∀ i ∈ body, Checked i) : Checked (.loop id controls body)
  | jump (mode : JumpMode) (target : LoopId) : Checked (.jump mode target)
  | rvalue {r : Rvalue} (part : r.Checked) : Checked (.rvalue r)

/-! ## §3. What was put together has been checked -/

variable {c : Constant}

theorem Constant.checked_of_made {fits : Bool} {ty : Ty} {value : ConstantValue} {fault : Fault}
    (made : (if fits then Except.ok (⟨ty, value⟩ : Constant) else .error fault) = .ok c)
    (plain : ∀ elements, value ≠ .array elements) : c.Checked := by
  split at made
  next =>
    cases made
    exact .components plain
  next => cases made

/-- A constant that was built was checked, its elements included. -/
theorem Constant.Built.checked (h : c.Built) : c.Checked := by
  induction h with
  | float made => exact checked_of_made made nofun
  | int made => exact checked_of_made made nofun
  | uint made => exact checked_of_made made nofun
  | bool made => exact checked_of_made made nofun
  | array parts made ih =>
    unfold Constant.array at made
    split at made
    · split at made
      next =>
        cases made
        exact .array ih
      next => cases made
    · cases made

/-- A value that was built was checked, by induction over the way it was built. -/
theorem Rvalue.Built.checked {r : Rvalue} (h : r.Built) : r.Checked := by
  induction h with
  | expression parts made ih =>
    obtain ⟨harity, rfl⟩ := mkExpression_eq_ok.mp made
    exact .expression harity ih
  | swizzle part made ih =>
    obtain ⟨kind, -, -, rfl⟩ := mkSwizzle_eq_ok made
    exact .swizzle ih
  | constant value => exact .constant value.checked
  | var made =>
    obtain ⟨rfl, -⟩ := mkVariable_eq_ok made
    exact .var _
  | index part place made ih1 ih2 =>
    obtain ⟨ty, -, -, rfl⟩ := mkIndex_eq_ok made
    exact .index ih1 ih2
  | field part made ih =>
    unfold Dereference.mkField at made
    split at made
    next => cases made
    next =>
      cases made
      exact .field ih
  | call callee signature ty parts ih => exact .call ih
  | texture offsets source place levels divisor reference made ih1 ih2 ih3 ih4 ih5 =>
    obtain ⟨properties, hproperties, rfl⟩ := mkTexture_eq_ok made
    exact .texture hproperties ih1 ih2 ih3 ih4 ih5

/-- The values of an assignment that was built were checked. -/
theorem Assignment.Built.checked {a : Assignment} (h : a.Built) : a.Checked := by
  induction h with
  | whole target value guard =>
    exact ⟨fun x hx => (guard x hx).checked, target.checked, value.checked⟩
  | masked rest made ih =>
    unfold Assignment.withMask at made
    split at made
    next =>
      cases made
      exact ih
    next =>
      split at made
      next =>
        cases made
        exact ⟨ih.condition, ih.lhs, ih.rhs⟩
      next => cases made

/-- A loop that was built compares with the value it ends at, or not at all. -/
theorem Controls.Built.checked {c : Controls} (h : c.Built) : c.Checked := by
  induction h with
  | unending counter first move =>
    exact ⟨fun x hx => (first x hx).checked, nofun, fun x hx => (move x hx).checked, rfl, nofun⟩
  | ending rest limit made ih =>
    unfold Controls.withTerminator at made
    split at made
    next hcompares =>
      cases made
      refine ⟨ih.start, ?_, ih.increment, rfl, ?_⟩
      · rintro x ⟨⟩
        exact limit.checked
      · rintro op ⟨⟩
        exact hcompares
    next => cases made

/-- **What was put together node by node has been checked.** -/
theorem Instruction.Built.checked {i : Instruction} (h : i.Built) : i.Checked := by
  induction h with
  | declare v => exact .declare v
  | function name bodies ih => exact .function ih
  | assign parts => exact .assign parts.checked
  | ret part => exact .ret fun x hx => (part x hx).checked
  | branch part first second ih1 ih2 => exact .branch part.checked ih1 ih2
  | loop id parts inner ih => exact .loop parts.checked ih
  | jump made =>
    obtain ⟨target, -, rfl⟩ := mkJump_eq_ok.mp made
    exact .jump _ target
  | rvalue part => exact .rvalue part.checked

/-! ## §4. What was read has been checked -/

theorem Constant.WellFormed.checked (h : c.WellFormed) : c.Checked := by
  induction h with
  | float | int | uint | bool => exact .components nofun
  | array count types parts ih => exact .array ih

section

variable {table : SymbolTable}

/-- Well-formed values were checked, by induction over their parts. -/
theorem Rvalue.WellFormed.checked {r : Rvalue} (h : r.WellFormed table) : r.Checked := by
  induction h with
  | expression arity parts ih => exact .expression arity ih
  | swizzle shape range type part ih => exact .swizzle ih
  | constant value => exact .constant value.checked
  | var value data => exact .var _
  | index type scalar integer part place ih1 ih2 => exact .index ih1 ih2
  | field type part ih => exact .field ih
  | call bound overload types parts ih => exact .call ih
  | texture source type through place levels divisor reference ih1 ih2 ih3 ih4 ih5 =>
    exact .texture source ih1 ih2 ih3 ih4 ih5

theorem Controls.WellFormed.checked {c : Controls} (h : c.WellFormed table) : c.Checked :=
  ⟨fun x hx => (h.start x hx).checked, fun x hx => (h.stop x hx).checked,
    fun x hx => (h.increment x hx).checked, h.paired, h.compares⟩

/-- Everything in a well-formed instruction was checked, nested bodies included. -/
theorem Instruction.WellFormed.checked {i : Instruction} (h : i.WellFormed table) : i.Checked := by
  induction h with
  | declare v => exact .declare v
  | function bodies ih => exact .function ih
  | assign parts =>
    exact .assign ⟨fun x hx => (parts.condition x hx).checked, parts.lhs.checked, parts.rhs.checked⟩
  | ret part => exact .ret fun x hx => (part x hx).checked
  | branch part first second ih1 ih2 => exact .branch part.checked ih1 ih2
  | loop parts inner ih => exact .loop parts.checked ih
  | jump mode target => exact .jump mode target
  | rvalue part => exact .rvalue part.checked

end

/-- **What was read has been checked.** -/
theorem checked_of_readModule {scan : Bool} {u : CompilationUnit} {text : String}
    {ir : List Instruction} (hread : (readModule scan u text).outcome = .ok ir) :
    ∀ i ∈ ir, i.Checked := by
  obtain ⟨nodes, s', hnodes, hyields⟩ := readModule_eq_ok hread
  exact fun i hi => (wellFormed_of_readDocument hnodes hyields i hi).checked

end Shading
