/-
  Shading.Proofs.Read.Value — reading values as an inductive relation.

  `ReadsValue env node r` has one rule for each form of a value that is accepted.  It holds just if
  reading the node gives the value (`readRvalue_iff`), so a proof about all values that can be read is
  an induction with one case a form, and no failure in it.  What is read from the parts of a node is
  given by a function on nodes, since a node determines its value.
-/
import Shading.Proofs.Read.Forms

namespace Shading

open List

variable {env : Env} {node : Node} {nodes extras : List Node} {ty : Ty} {c : Constant}
  {lookup : Lookup}

/-! ## §1. Lists -/

/-- A list is read just if each node of it is read, as what a function gives for the node. -/
theorem except_mapM_eq_ok {α β ε : Type} [Inhabited β] {f : α → Except ε β} {as : List α}
    {bs : List β} :
    as.mapM f = .ok bs ↔ ∃ value, bs = as.map value ∧ ∀ a ∈ as, f a = .ok (value a) := by
  constructor
  · intro h
    refine ⟨fun a => (f a).toOption.getD default, ?_⟩
    induction as generalizing bs with
    | nil =>
      cases h
      exact ⟨rfl, nofun⟩
    | cons a as ih =>
      simp only [mapM_cons, except_bind_eq_ok] at h
      obtain ⟨b, hb, bs, hbs, h⟩ := h
      cases h
      obtain ⟨rfl, hall⟩ := ih hbs
      simp only [forall_mem_cons, map_cons, hb]
      exact ⟨rfl, rfl, hall⟩
  · rintro ⟨value, rfl, hall⟩
    induction as with
    | nil => rfl
    | cons a as ih =>
      obtain ⟨ha, has⟩ := forall_mem_cons.mp hall
      simp only [mapM_cons, except_bind_eq_ok]
      exact ⟨_, ha, _, ih has, rfl⟩

/-! ## §2. What the makers of nodes check -/

variable {r : Rvalue}

theorem mkExpression_eq_ok {op : Operator} {operands : List Rvalue} :
    Rvalue.mkExpression op ty operands = .ok r
      ↔ operands.length = op.arity ∧ r = .expression op ty operands := by
  unfold Rvalue.mkExpression
  split
  next h => simp [h, eq_comm]
  next h => simp [h]

/-- Only scalars and vectors are swizzled, within their size. -/
theorem mkSwizzle_eq_ok {value : Rvalue} {mask : SwizzleMask}
    (h : Rvalue.mkSwizzle value mask = .ok r) :
    ∃ kind, (value.ty = .scalar kind ∨ ∃ size, value.ty = .vector kind size)
      ∧ (∀ c ∈ mask.components, c.index < value.ty.rows)
      ∧ r = .swizzle value mask (.ofComponents kind mask.size) := by
  unfold Rvalue.mkSwizzle at h
  cases hfind : mask.components.find? (value.ty.rows ≤ ·.index) with
  | some c =>
    simp only [hfind] at h
    split at h
    all_goals cases h
  | none =>
    have hmask : ∀ c ∈ mask.components, c.index < value.ty.rows := by
      intro c hc
      simpa using List.find?_eq_none.mp hfind c hc
    simp only [hfind] at h
    split at h
    next kind hty =>
      cases h
      exact ⟨kind, .inl hty, hmask, rfl⟩
    next kind size hty =>
      cases h
      exact ⟨kind, .inr ⟨size, hty⟩, hmask, rfl⟩
    next => cases h

theorem mkVariable_eq_ok {v : Var} {d : Dereference} (h : Dereference.mkVariable v = .ok d) :
    d = .var v ∧ v.ty ≠ .void ∧ v.ty.result? = none := by
  unfold Dereference.mkVariable at h
  split at h
  · cases h
  · cases h
  next hvoid hfunction =>
    cases h
    refine ⟨rfl, hvoid, ?_⟩
    cases hty : v.ty with
    | function serial result parameters => exact absurd hty (hfunction _ _ _)
    | _ => rfl

theorem mkIndex_eq_ok {base index : Rvalue} {d : Dereference}
    (h : Dereference.mkIndex base index = .ok d) :
    ∃ ty, Dereference.partType? base.ty = some ty
      ∧ (index.ty.isScalar && index.ty.isInteger) = true ∧ d = .index base index ty := by
  unfold Dereference.mkIndex at h
  split at h
  · cases h
  next ty hty =>
    split at h
    next hindex =>
      cases h
      exact ⟨ty, hty, hindex, rfl⟩
    next => cases h

theorem mkTexture_eq_ok {sampler : Dereference} {coordinate : Rvalue} {t : Texture}
    (h : Texture.mkTexture lookup sampler coordinate = .ok t) :
    ∃ properties, sampler.ty.sampler? = some properties
      ∧ t = ⟨lookup, Texture.resultType properties, sampler, coordinate, .zero, none, none⟩ := by
  unfold Texture.mkTexture at h
  split at h
  · cases h
  next properties hproperties =>
    cases h
    exact ⟨properties, hproperties, rfl⟩

theorem Prototype.matching?_eq_some {p : Prototype} {types : List Ty} {i : Nat}
    (h : p.matching? types = some i) : ∃ o, p.overloads[i]? = some o ∧ o.types = types := by
  obtain ⟨hlt, htypes, -⟩ := findIdx?_eq_some_iff_getElem.mp h
  exact ⟨p.overloads[i], getElem?_eq_getElem hlt, by simpa using htypes⟩

/-! ## §3. Constants -/

theorem readNumbers_eq_ok {α : Type} {whole : Node} {number? : Node → Option α} {xs : List α} :
    readNumbers env whole number? nodes = .ok xs ↔ nodes.mapM number? = some xs := by
  induction nodes generalizing xs with
  | nil =>
    simp only [readNumbers, mapM_nil]
    constructor
    · intro h
      cases h
      rfl
    · intro h
      cases h
      rfl
  | cons node rest ih =>
    simp only [readNumbers, except_bind_eq_ok, Env.require_eq_ok, ih, mapM_cons,
      Option.bind_eq_bind, Option.bind_eq_some_iff]
    constructor
    · rintro ⟨x, hx, ys, hys, h⟩
      cases h
      exact ⟨x, hx, ys, hys, rfl⟩
    · rintro ⟨x, hx, ys, hys, h⟩
      cases h
      exact ⟨x, hx, ys, hys, rfl⟩

theorem readComponents_congr {env' : Env} {whole : Node}
    (h : readComponents env whole ty nodes = .ok c) :
    readComponents env' whole ty nodes = .ok c := by
  unfold readComponents at h ⊢
  rw [except_bind_eq_ok] at h ⊢
  obtain ⟨u, hu, h⟩ := h
  refine ⟨u, by simpa using hu, ?_⟩
  split at h
  all_goals first
    | exact absurd h Env.fail_ne_ok
    | simpa only [except_bind_eq_ok, readNumbers_eq_ok, Env.check_eq_ok] using h


/-- How a node is read as a constant: as components of a type that is no array type, or as elements. -/
inductive ReadsConstant (env : Env) : Node → Constant → Prop
  | components {type : Node} {values : List Node} {ty : Ty} {c : Constant}
      (typed : readType env type = .ok ty) (flat : ty.element?.isSome = false)
      (read : readComponents env (.list [.symbol "constant", type, .list values]) ty values = .ok c) :
      ReadsConstant env (.list [.symbol "constant", type, .list values]) c
  | array {type : Node} {values : List Node} {value : Node → Constant} {ty : Ty} {c : Constant}
      (typed : readType env type = .ok ty) (isArray : ty.element?.isSome = true)
      (parts : ∀ x ∈ values, ReadsConstant env x (value x))
      (made : Constant.array ty (values.map value) = .ok c) :
      ReadsConstant env (.list [.symbol "constant", type, .list values]) c

instance : Inhabited Constant := ⟨⟨.error, .array []⟩⟩

theorem readConstant_head (h : readConstant env node = .ok c) :
    node.head? = some "constant" := by
  unfold readConstant at h
  split at h
  · rfl
  · rfl
  · exact absurd h Env.fail_ne_ok

/-- Elements are constants, one for each node. -/
theorem readElements_eq_ok {cs : List Constant} :
    readElements env nodes = .ok cs
      ↔ ∃ value, cs = nodes.map value ∧ ∀ x ∈ nodes, readConstant env x = .ok (value x) := by
  rw [← except_mapM_eq_ok]
  induction nodes generalizing cs with
  | nil => rfl
  | cons node rest ih =>
    simp only [readElements, mapM_cons, except_bind_eq_ok, Env.assert_eq_ok, ih]
    constructor
    · rintro ⟨-, -, hrest⟩
      exact hrest
    · rintro ⟨c, hc, hrest⟩
      exact ⟨(), by rw [readConstant_head hc]; rfl, c, hc, hrest⟩

/-- **Constants are read as the relation says.** -/
theorem readConstant_iff : readConstant env node = .ok c ↔ ReadsConstant env node c := by
  constructor
  · intro h
    refine (readConstant.mutual_induct (fun node => ∀ c, readConstant env node = .ok c → _)
      (fun nodes => ∀ x ∈ nodes, ∀ c, readConstant env x = .ok c → ReadsConstant env x c)
      ?_ ?_ ?_ ?_ ?_).1 node c h
    · intro type values ih c h
      simp only [readConstant, except_bind_eq_ok] at h
      obtain ⟨ty, hty, h⟩ := h
      split at h
      next harray =>
        simp only [except_bind_eq_ok, readElements_eq_ok, Env.check_eq_ok] at h
        obtain ⟨_, ⟨value, rfl, hvalues⟩, hc⟩ := h
        exact .array hty harray (fun x hx => ih x hx _ (hvalues x hx)) hc
      next hflat => exact .components hty (Bool.eq_false_iff.mpr hflat) h
    · intro type other hother c h
      rw [readConstant] at h
      · simp only [except_bind_eq_ok, Env.fail_ne_ok, and_false, exists_false] at h
      · exact hother
    · intro node h1 h2 c h
      rw [readConstant] at h
      · exact absurd h Env.fail_ne_ok
      all_goals assumption
    · exact forall_mem_nil _
    · exact fun node rest ih1 ih2 => forall_mem_cons.mpr ⟨ih1, ih2⟩
  · intro h
    induction h with
    | components typed flat read =>
      simp only [readConstant, except_bind_eq_ok]
      exact ⟨_, typed, by rw [flat]; exact read⟩
    | array typed isArray parts made ih =>
      simp only [readConstant, except_bind_eq_ok]
      refine ⟨_, typed, ?_⟩
      simp only [isArray, if_true, except_bind_eq_ok, Env.check_eq_ok, readElements_eq_ok]
      exact ⟨_, ⟨_, rfl, ih⟩, made⟩

/-! ## §4. Rvalues -/

/-- The projector among what follows the offsets of a lookup, unless it divides by nothing. -/
def divisor? : List Node → Option Node
  | p :: _ :: _ => if isUnitProjector p then none else some p
  | _ => none

/-- The comparator among what follows the offsets of a lookup. -/
def reference? : List Node → Option Node
  | _ :: q :: _ => if q.isEmptyList then none else some q
  | _ => none

/-- What chooses the level of detail among what follows the offsets of a lookup. -/
def LookupTag.levels? : LookupTag → List Node → Option (List Node)
  | .plain, [_, _] => some []
  | .bias, [_, _, x] => some [x]
  | .level, [_, _, x] => some [x]
  | .gradient, [_, _, .list [dx, dy]] => some [dx, dy]
  | .fetch, [lod] => some [lod]
  | _, _ => none

/-- The lookup with these values for the level of detail. -/
def LookupTag.make : LookupTag → List Rvalue → Lookup
  | .bias, [x] => .bias x
  | .level, [x] => .level x
  | .gradient, [dx, dy] => .gradient dx dy
  | .fetch, [lod] => .fetch lod
  | _, _ => .plain

/-- How a node is read as a value. -/
inductive ReadsValue (env : Env) : Node → Rvalue → Prop
  | expression {type : Node} {name : String} {operands : List Node} {value : Node → Rvalue} {ty : Ty}
      {op : Operator} (typed : readType env type = .ok ty) (named : Operator.ofName? name = some op)
      (count : operands.length = op.arity) (parts : ∀ x ∈ operands, ReadsValue env x (value x)) :
      ReadsValue env (.list (.symbol "expression" :: type :: .symbol name :: operands))
        (.expression op ty (operands.map value))
  | swizzle {text : String} {mask : SwizzleMask} {inner : Node} {value r : Rvalue}
      (letters : SwizzleMask.parse text = .ok mask) (part : ReadsValue env inner value)
      (made : Rvalue.mkSwizzle value mask = .ok r) :
      ReadsValue env (.list [.symbol "swiz", .symbol text, inner]) r
  | constant {node : Node} {c : Constant} (read : ReadsConstant env node c) :
      ReadsValue env node (.constant c)
  | var {name : String} {v : Var} {d : Dereference} (bound : env.symbols.findVariable? name = some v)
      (made : Dereference.mkVariable v = .ok d) :
      ReadsValue env (.list [.symbol "var_ref", .symbol name]) (.dereference d)
  | index {baseNode indexNode : Node} {base index : Rvalue} {d : Dereference}
      (part : ReadsValue env baseNode base) (place : ReadsValue env indexNode index)
      (made : Dereference.mkIndex base index = .ok d) :
      ReadsValue env (.list [.symbol "array_ref", baseNode, indexNode]) (.dereference d)
  | call {name : String} {args : List Node} {value : Node → Rvalue} {p : Prototype} {i : Nat}
      {o : Overload} (parts : ∀ x ∈ args, ReadsValue env x (value x))
      (bound : env.symbols.findFunction? name = some p)
      (chosen : p.matching? ((args.map value).map (·.ty)) = some i)
      (overload : p.overloads[i]? = some o) :
      ReadsValue env (.list [.symbol "call", .symbol name, .list args])
        (.call p.name i o.returnType (args.map value))
  | texture {head : String} {tag : LookupTag} {sampler coordinate offsets : Node}
      {extras levels : List Node} {value : Node → Rvalue} {d : Dereference} {c : Rvalue} {o : Offsets}
      {t : Texture} (kind : LookupTag.ofName? head = some tag) (chosen : tag.levels? extras = some levels)
      (source : ReadsValue env sampler (.dereference d)) (place : ReadsValue env coordinate c)
      (shift : readOffsets env offsets = .ok o)
      (divisor : ∀ x ∈ divisor? extras, ReadsValue env x (value x))
      (reference : ∀ x ∈ reference? extras, ReadsValue env x (value x))
      (parts : ∀ x ∈ levels, ReadsValue env x (value x))
      (made : Texture.mkTexture (tag.make (levels.map value)) d c = .ok t) :
      ReadsValue env (.list (.symbol head :: sampler :: coordinate :: offsets :: extras))
        (.texture { t with
          offsets := o, projector := (divisor? extras).map value,
          comparator := (reference? extras).map value })

/-! ## §5. Readings are runs -/

/-- What is read from the node. -/
def Env.value (env : Env) (node : Node) : Rvalue := (readRvalue env node).toOption.getD default

/-- The node can be read as a value. -/
def Env.Reads (env : Env) (node : Node) : Prop := readRvalue env node = .ok (env.value node)

theorem Env.value_eq (h : readRvalue env node = .ok r) : env.value node = r := by
  rw [Env.value, h]
  rfl

theorem Env.reads_of_ok (h : readRvalue env node = .ok r) : env.Reads node := by
  rw [Env.Reads, Env.value_eq h, h]

theorem Env.ok_iff : readRvalue env node = .ok r ↔ env.Reads node ∧ r = env.value node :=
  ⟨fun h => ⟨Env.reads_of_ok h, (Env.value_eq h).symm⟩, fun h => h.2 ▸ h.1⟩

theorem readRvalues_eq_ok {rs : List Rvalue} :
    readRvalues env nodes = .ok rs ↔ (∀ x ∈ nodes, env.Reads x) ∧ rs = nodes.map env.value := by
  induction nodes generalizing rs with
  | nil => simp [readRvalues, eq_comm]
  | cons node rest ih =>
    simp only [readRvalues, except_bind_eq_ok, ih, Env.ok_iff, forall_mem_cons, map_cons]
    constructor
    · rintro ⟨_, ⟨hnode, rfl⟩, _, ⟨hrest, rfl⟩, h⟩
      exact ⟨⟨hnode, hrest⟩, (Except.ok.inj h).symm⟩
    · rintro ⟨⟨hnode, hrest⟩, rfl⟩
      exact ⟨_, ⟨hnode, rfl⟩, _, ⟨hrest, rfl⟩, rfl⟩

/-- Modifiers are left out or read as values. -/
theorem readModifiers_eq_ok {mods : Option Rvalue × Option Rvalue} :
    readModifiers env extras = .ok mods
      ↔ (∀ x ∈ divisor? extras, env.Reads x) ∧ (∀ x ∈ reference? extras, env.Reads x)
        ∧ mods = ((divisor? extras).map env.value, (reference? extras).map env.value) := by
  rcases extras with _ | ⟨p, _ | ⟨q, tail⟩⟩
  · simp [readModifiers, divisor?, reference?, eq_comm]
  · simp [readModifiers, divisor?, reference?, eq_comm]
  have hlist : env.Reads q → q.list?.isSome = true := by
    intro h
    obtain ⟨tag, rest, rfl, -⟩ := readRvalue_tag h
    rfl
  simp only [readModifiers, divisor?, reference?]
  cases isUnitProjector p <;> cases q.isEmptyList
  all_goals simp only [if_true, if_false, Bool.false_eq_true, except_bind_eq_ok, except_map_eq_ok,
    Env.ok_iff, Env.assert_eq_ok]
  all_goals constructor
  · rintro ⟨_, ⟨_, ⟨hp, rfl⟩, rfl⟩, -, -, _, ⟨hq, rfl⟩, h⟩
    exact ⟨by simpa using hp, by simpa using hq, (Except.ok.inj h).symm⟩
  · rintro ⟨hp, hq, rfl⟩
    have hq' := hq q rfl
    exact ⟨_, ⟨_, ⟨hp p rfl, rfl⟩, rfl⟩, (), hlist hq', _, ⟨hq', rfl⟩, rfl⟩
  · rintro ⟨_, ⟨_, ⟨hp, rfl⟩, rfl⟩, h⟩
    exact ⟨by simpa using hp, by simp, (Except.ok.inj h).symm⟩
  · rintro ⟨hp, -, rfl⟩
    exact ⟨_, ⟨_, ⟨hp p rfl, rfl⟩, rfl⟩, rfl⟩
  · rintro ⟨_, h0, -, -, _, ⟨hq, rfl⟩, h⟩
    cases h0
    exact ⟨by simp, by simpa using hq, (Except.ok.inj h).symm⟩
  · rintro ⟨-, hq, rfl⟩
    have hq' := hq q rfl
    exact ⟨_, rfl, (), hlist hq', _, ⟨hq', rfl⟩, rfl⟩
  · rintro ⟨_, h0, h⟩
    cases h0
    exact ⟨by simp, by simp, (Except.ok.inj h).symm⟩
  · rintro ⟨-, -, rfl⟩
    exact ⟨_, rfl, rfl⟩

theorem readGradient_eq_ok :
    readGradient env node = .ok lookup ↔ ∃ dx dy, node = .list [dx, dy] ∧ env.Reads dx ∧ env.Reads dy
      ∧ lookup = .gradient (env.value dx) (env.value dy) := by
  unfold readGradient
  split
  · simp only [except_bind_eq_ok, Env.ok_iff]
    constructor
    · rintro ⟨_, ⟨hdx, rfl⟩, _, ⟨hdy, rfl⟩, h⟩
      exact ⟨_, _, rfl, hdx, hdy, (Except.ok.inj h).symm⟩
    · rintro ⟨_, _, h, hdx, hdy, rfl⟩
      cases h
      exact ⟨_, ⟨hdx, rfl⟩, _, ⟨hdy, rfl⟩, rfl⟩
  · next hnode =>
    refine ⟨fun h => absurd h Env.fail_ne_ok, ?_⟩
    rintro ⟨dx, dy, rfl, -⟩
    exact absurd rfl (hnode dx dy)

/-- A lookup has the levels that its tag asks for. -/
theorem readLookup_eq_ok {tag : LookupTag} :
    (extras.length = tag.extras ∧ readLookup env tag extras = .ok lookup)
      ↔ ∃ levels, tag.levels? extras = some levels ∧ (∀ x ∈ levels, env.Reads x)
        ∧ lookup = tag.make (levels.map env.value) := by
  cases tag <;> rcases extras with _ | ⟨p, _ | ⟨q, _ | ⟨x, _ | ⟨y, rest⟩⟩⟩⟩
  case gradient.cons.cons.cons.nil =>
    rw [show readLookup env .gradient [p, q, x] = readGradient env x from rfl, readGradient_eq_ok]
    constructor
    · rintro ⟨-, dx, dy, rfl, hdx, hdy, rfl⟩
      exact ⟨[dx, dy], rfl, forall_mem_cons.mpr ⟨hdx, forall_mem_singleton.mpr hdy⟩, rfl⟩
    · rintro ⟨levels, hlevels, hreads, rfl⟩
      rcases x with _ | _ | _ | ⟨_ | ⟨dx, _ | ⟨dy, _ | _⟩⟩⟩
      all_goals cases hlevels
      exact ⟨rfl, dx, dy, rfl, hreads dx mem_cons_self, hreads dy (mem_cons_of_mem _ mem_cons_self),
        rfl⟩
  all_goals simp [LookupTag.extras, LookupTag.levels?, LookupTag.make, readLookup,
    except_bind_eq_ok, Env.ok_iff, and_assoc, eq_comm (a := lookup)]

theorem Node.induction {P : Node → Prop}
    (h : ∀ node, (∀ part, sizeOf part < sizeOf node → P part) → P node) (node : Node) : P node :=
  h node fun part _ => Node.induction h part
termination_by sizeOf node

theorem Node.sizeOf_lt_of_mem {items : List Node} (h : node ∈ items) :
    sizeOf node < sizeOf (Node.list items) := by
  have hlt := List.sizeOf_lt_of_mem h
  rw [Node.list.sizeOf_spec]
  omega

theorem mem_of_divisor? (h : node ∈ divisor? extras) : node ∈ extras := by
  unfold divisor? at h
  split at h
  · split at h
    all_goals cases h
    exact mem_cons_self
  · cases h

theorem mem_of_reference? (h : node ∈ reference? extras) : node ∈ extras := by
  unfold reference? at h
  split at h
  · split at h
    all_goals cases h
    exact mem_cons_of_mem _ mem_cons_self
  · cases h

theorem LookupTag.forall_levels? {Q : Node → Prop}
    (hitems : ∀ {items : List Node}, Q (.list items) → ∀ x ∈ items, Q x) {tag : LookupTag}
    {levels : List Node} (h : tag.levels? extras = some levels) (hextras : ∀ x ∈ extras, Q x) :
    ∀ x ∈ levels, Q x := by
  unfold LookupTag.levels? at h
  split at h
  all_goals cases h
  all_goals simp only [forall_mem_cons] at hextras
  · exact nofun
  · exact forall_mem_cons.mpr hextras.2.2
  · exact forall_mem_cons.mpr hextras.2.2
  · exact hitems hextras.2.2.1
  · exact forall_mem_cons.mpr hextras

/-- **A node can be read as a value just if one of the rules reads it.** -/
theorem readRvalue_iff : readRvalue env node = .ok r ↔ ReadsValue env node r := by
  constructor
  · intro h
    induction node using Node.induction generalizing r with
    | h node ih =>
    have hpart : ∀ x, sizeOf x < sizeOf node → env.Reads x → ReadsValue env x (env.value x) :=
      fun x hlt hx => ih x hlt hx
    have hwithin {items : List Node} (hlt : sizeOf (Node.list items) < sizeOf node) :
        ∀ x ∈ items, sizeOf x < sizeOf node := fun x hx => Nat.lt_trans (Node.sizeOf_lt_of_mem hx) hlt
    unfold readRvalue at h
    split at h
    · simp only [except_bind_eq_ok, Env.require_eq_ok, Env.assert_eq_ok, Env.check_eq_ok,
        Node.symbol?_eq_some, readRvalues_eq_ok] at h
      obtain ⟨-, -, ty, hty, name, rfl, op, hop, -, hcount, _, ⟨hreads, rfl⟩, hr⟩ := h
      obtain ⟨hlen, rfl⟩ := mkExpression_eq_ok.mp hr
      exact .expression hty hop (by simpa using hcount) fun x hx =>
        hpart x (Node.sizeOf_lt_of_mem (by simp [hx])) (hreads x hx)
    · simp only [except_bind_eq_ok, Env.require_eq_ok, Env.check_eq_ok, Node.symbol?_eq_some] at h
      obtain ⟨text, rfl, mask, hmask, value, hvalue, hr⟩ := h
      exact .swizzle hmask (ih _ (Node.sizeOf_lt_of_mem (by simp)) hvalue) hr
    · simp only [except_bind_eq_ok, readConstant_iff] at h
      obtain ⟨c, hc, h⟩ := h
      cases h
      exact .constant hc
    · simp only [except_bind_eq_ok, Env.require_eq_ok, Env.check_eq_ok] at h
      obtain ⟨v, hv, d, hd, h⟩ := h
      cases h
      exact .var hv hd
    · simp only [except_bind_eq_ok, Env.check_eq_ok] at h
      obtain ⟨base, hbase, index, hindex, d, hd, h⟩ := h
      cases h
      exact .index (ih _ (Node.sizeOf_lt_of_mem (by simp)) hbase)
        (ih _ (Node.sizeOf_lt_of_mem (by simp)) hindex) hd
    · simp only [except_bind_eq_ok, readRvalues_eq_ok, resolveCall, Env.require_eq_ok] at h
      obtain ⟨_, ⟨hreads, rfl⟩, p, hp, i, hi, h⟩ := h
      obtain ⟨o, ho, -⟩ := Prototype.matching?_eq_some hi
      rw [ho] at h
      cases h
      exact .call (fun x hx => hpart x (hwithin (Node.sizeOf_lt_of_mem (by simp)) x hx) (hreads x hx)) hp hi
        ho
    · split at h
      · exact absurd h Env.fail_ne_ok
      next tag htag =>
        simp only [except_bind_eq_ok, Env.assert_eq_ok, asDereference_eq_ok, Env.check_eq_ok,
          readModifiers_eq_ok, beq_iff_eq] at h
        obtain ⟨-, hlen, _, hs, d, rfl, c, hc, o, ho, lookup, hlookup, t, ht, mods,
          ⟨hdivisor, hreference, rfl⟩, h⟩ := h
        cases h
        obtain ⟨levels, hlevels, hreads, rfl⟩ := readLookup_eq_ok.mp ⟨hlen, hlookup⟩
        have hlt := LookupTag.forall_levels? (Q := fun x => sizeOf x < _) hwithin hlevels fun x hx =>
          Node.sizeOf_lt_of_mem (by simp [hx])
        exact .texture htag hlevels (ih _ (Node.sizeOf_lt_of_mem (by simp)) hs)
          (ih _ (Node.sizeOf_lt_of_mem (by simp)) hc) ho
          (fun x hx => hpart x (Node.sizeOf_lt_of_mem (by simp [mem_of_divisor? hx])) (hdivisor x hx))
          (fun x hx => hpart x (Node.sizeOf_lt_of_mem (by simp [mem_of_reference? hx]))
            (hreference x hx))
          (fun x hx => hpart x (hlt x hx) (hreads x hx)) ht
    · exact absurd h Env.fail_ne_ok
  · intro h
    have hvalues {nodes : List Node} {value : Node → Rvalue}
        (h : ∀ x ∈ nodes, readRvalue env x = .ok (value x)) :
        (∀ x ∈ nodes, env.Reads x) ∧ nodes.map value = nodes.map env.value :=
      ⟨fun x hx => Env.reads_of_ok (h x hx),
        map_congr_left fun x hx => (Env.value_eq (h x hx)).symm⟩
    induction h with
    | @expression type name operands value ty op typed named count parts ih =>
      have hcount : (operands.length == 1 || operands.length == 2) = true := by
        rw [count]
        cases op <;> rfl
      simp only [readRvalue, except_bind_eq_ok, Env.require_eq_ok, Env.assert_eq_ok,
        Env.check_eq_ok, readRvalues_eq_ok, mkExpression_eq_ok]
      exact ⟨(), hcount, ty, typed, name, rfl, op, named, (), by simp [count], _, hvalues ih,
        by rw [length_map, count], rfl⟩
    | swizzle letters part made ih =>
      simp only [readRvalue, except_bind_eq_ok, Env.require_eq_ok, Env.check_eq_ok]
      exact ⟨_, rfl, _, letters, _, ih, made⟩
    | constant read =>
      have hread := readConstant_iff.mpr read
      obtain ⟨rest, rfl⟩ := Node.head?_eq_some.mp (readConstant_head hread)
      simp only [readRvalue, except_bind_eq_ok]
      exact ⟨_, hread, rfl⟩
    | var bound made =>
      simp only [readRvalue, except_bind_eq_ok, Env.require_eq_ok, Env.check_eq_ok]
      exact ⟨_, bound, _, made, rfl⟩
    | index part place made ih1 ih2 =>
      simp only [readRvalue, except_bind_eq_ok, Env.check_eq_ok]
      exact ⟨_, ih1, _, ih2, _, made, rfl⟩
    | call parts bound chosen overload ih =>
      simp only [readRvalue, resolveCall, except_bind_eq_ok, Env.require_eq_ok, readRvalues_eq_ok]
      exact ⟨_, hvalues ih, _, bound, _, chosen, by rw [overload]; rfl⟩
    | @texture head tag sampler coordinate offsets extras levels value d c o t kind chosen source place
        shift divisor reference parts made ih1 ih2 ih3 ih4 ih5 =>
      have hne : ∀ other : String, LookupTag.ofName? other = none → head ≠ other := by
        rintro other hother rfl
        rw [kind] at hother
        cases hother
      obtain ⟨hreads, hmap⟩ := hvalues ih5
      obtain ⟨hlen, hlookup⟩ := readLookup_eq_ok.mpr ⟨levels, chosen, hreads, congrArg _ hmap⟩
      rw [readRvalue]
      · simp only [kind, except_bind_eq_ok, Env.assert_eq_ok, asDereference_eq_ok, Env.check_eq_ok,
          readModifiers_eq_ok]
        refine ⟨(), by simp [hlen], _, ih1, d, rfl, c, ih2, o, shift, _, hlookup, t, made, _,
          ⟨fun x hx => Env.reads_of_ok (ih3 x hx), fun x hx => Env.reads_of_ok (ih4 x hx), rfl⟩, ?_⟩
        rw [Option.map_congr fun x hx => Env.value_eq (ih3 x hx),
          Option.map_congr fun x hx => Env.value_eq (ih4 x hx)]
      · exact hne _ rfl
      · exact hne _ rfl

/-! ## §6. Readings in other environments -/

section

variable {env' : Env}

theorem readOffsets_congr {o : Offsets} (h : readOffsets env node = .ok o) :
    readOffsets env' node = .ok o := by
  unfold readOffsets at h ⊢
  split at h
  · simpa only [except_bind_eq_ok, Env.require_eq_ok] using h
  · exact absurd h Env.fail_ne_ok

/-- The second environment has the types of the first one, for the names in nodes with a property that
    the items of a list have if the list does. -/
structure Env.SharesTypes (Q : Node → Prop) (env env' : Env) : Prop where
  items : ∀ {items : List Node}, Q (.list items) → ∀ x ∈ items, Q x
  types : ∀ {name : String}, Q (.symbol name) →
    env'.symbols.findType? name = env.symbols.findType? name

variable {Q : Node → Prop} (h : env.SharesTypes Q env')
include h

theorem Env.SharesTypes.readType (hnode : Q node) (hty : readType env node = .ok ty) :
    Shading.readType env' node = .ok ty := by
  induction node using readType.induct generalizing ty with
  | case1 name =>
    rw [Shading.readType, Env.require_eq_ok] at hty ⊢
    rw [h.types hnode, hty]
  | case2 element length ih =>
    simp only [Shading.readType, except_bind_eq_ok, Env.require_eq_ok] at hty ⊢
    obtain ⟨t, ht, rest⟩ := hty
    exact ⟨t, ih (h.items hnode element (by simp)) ht, rest⟩
  | case3 node h1 h2 =>
    rw [Shading.readType] at hty
    · exact absurd hty Env.fail_ne_ok
    all_goals assumption

/-- **A constant is read where the types of its environment are.** -/
theorem ReadsConstant.carry (hnode : Q node) (hread : ReadsConstant env node c) :
    ReadsConstant env' node c := by
  induction hread with
  | components typed flat read =>
    exact .components (h.readType (h.items hnode _ (by simp)) typed) flat (readComponents_congr read)
  | @array type values value ty c typed isArray parts made ih =>
    have hvalues := h.items (h.items hnode (.list values) (by simp))
    exact .array (h.readType (h.items hnode _ (by simp)) typed) isArray
      (fun x hx => ih x hx (hvalues x hx)) made

end

end Shading
