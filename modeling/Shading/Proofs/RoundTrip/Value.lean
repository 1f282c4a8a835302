/-
  Shading.Proofs.RoundTrip.Value — constants and rvalues read from their own text.

  Where names stand for what is called so, the text of a value that the reader made reads as that
  value (`Rvalue.Made.reread`).  The one thing that is assumed of the value is that its fractional
  components survive being written and read (`SurvivesText`).
-/
import Shading.Ir.Text
import Shading.Ir.Walk
import Shading.Proofs.Constant
import Shading.Proofs.Read.Made
import Shading.Proofs.RoundTrip.Names
import Shading.Proofs.WriteMask

namespace Shading

open List Layout

/-! ## §1. Numbers -/

/-- The text of the number, read with 64 bits and rounded to 32, gives the number back. -/
def SurvivesText (x : Single) : Prop :=
  ∃ negative d, Decimal.signed? x.text.toList = some (negative, d)
    ∧ (d.toBinary .double negative).convert .single = x

/-- The fractional components that the visit meets survive being written and read. -/
def Visit.Survives : Visit → Prop
  | .constant _ components => ∀ x, ScalarValue.float x ∈ components → SurvivesText x
  | _ => True

instance (x : Single) : Decidable (SurvivesText x) :=
  match h : Decimal.signed? x.text.toList with
  | none => isFalse (by simp [SurvivesText, h])
  | some (negative, d) =>
    decidable_of_iff ((d.toBinary .double negative).convert .single = x) (by
      constructor
      · intro hx
        exact ⟨negative, d, h, hx⟩
      · rintro ⟨_, _, h', hx⟩
        cases h.symm.trans h'
        exact hx)

/-- Does the component, if it is a fractional number, survive being written and read? -/
def ScalarValue.survives : ScalarValue → Bool
  | .float x => decide (SurvivesText x)
  | _ => true

instance (v : Visit) : Decidable v.Survives :=
  match v with
  | .constant _ components => decidable_of_iff (components.all (·.survives) = true) (by
      rw [all_eq_true]
      constructor
      · intro h x hx
        exact of_decide_eq_true (h _ hx)
      · intro h c hc
        cases c with
        | float x => exact decide_eq_true (h x hc)
        | _ => rfl)
  | .block _ | .declare _ | .function _ _ | .signature _ _ _ _ | .assign _ _ | .ret | .branch
  | .loop _ _ | .jump _ _ | .expression _ _ _ | .swizzle _ _ | .var _ | .index _ _ | .field _ _ _
  | .call _ _ _ _ | .texture _ _ _ _ _ | .use _ => isTrue trivial

theorem isFinite_of_convert {y : Double} (h : (y.convert .single).isFinite = true) :
    y.isFinite = true := by
  unfold Binary.convert at h
  split at h
  · have hnan : ∀ negative, (Binary.make .single negative
        (Format.single.infinity + Nat.pow 2 (Format.single.fractionBits - 1))).isFinite = false := by
      decide
    rw [hnan] at h
    cases h
  · split at h
    next hfinite => exact hfinite
    next =>
      have hinf : ∀ negative,
          (Binary.make .single negative Format.single.infinity).isFinite = false := by
        decide
      rw [hinf] at h
      cases h

/-- The component is written as a word that reads as the other one. -/
def WordOf {α : Type} (number? : Node → Option α) (component : α → ScalarValue) (x y : α) : Prop :=
  ∃ node, (word (component x).text).node? = some node ∧ number? node = some y

theorem wordOf_float {x : Single} (hx : x.isFinite = true) (h : SurvivesText x) :
    WordOf single? .float x x := by
  obtain ⟨negative, d, hd, hround⟩ := h
  have hfinite := isFinite_of_convert (hround ▸ hx)
  refine ⟨.float (d.toBinary .double negative), node?_float hd hfinite, ?_⟩
  simp [single?, Node.number?, hround, hx]

theorem wordOf_int (x : Int32) : WordOf int32? .int x x := by
  have hmin := Int32.minValue_le_toInt x
  have hmax := Int32.toInt_le x
  have hlo : Int32.minValue.toInt = -2147483648 := by decide
  have hhi : Int32.maxValue.toInt = 2147483647 := by decide
  obtain ⟨hsome, hvalue⟩ := int64?_of_bounds (n := x.toInt) (by omega) (by omega)
  refine ⟨.int (.ofInt x.toInt), node?_int hsome, ?_⟩
  simp only [int32?, Node.int?, Option.bind_some, hvalue]
  rw [if_pos ⟨hmin, by omega⟩, Int32.ofInt_toInt]

theorem wordOf_uint (x : UInt32) : WordOf uint32? .uint x x := by
  have hlt : x.toNat < 4294967296 := x.toNat_lt
  obtain ⟨hsome, hvalue⟩ := int64?_of_bounds (n := (x.toNat : Int)) (by omega) (by omega)
  refine ⟨.int (.ofInt x.toNat), node?_natWord hvalue, ?_⟩
  have hsize : UInt32.size = 4294967296 := rfl
  simp only [uint32?, Node.int?, Option.bind_some, hvalue]
  rw [if_pos (by omega), Int.toNat_natCast, UInt32.ofNat_toNat]

theorem wordOf_bool (x : Bool) : WordOf bool? .bool x x := by
  cases x with
  | false => exact ⟨.int 0, node?_int (n := 0) (by decide), by decide⟩
  | true => exact ⟨.int 1, node?_int (n := 1) (by decide), by decide⟩

variable {α : Type} {g : α → α}

/-- Words are read back one by one. -/
theorem wordsOf {number? : Node → Option α} {component : α → ScalarValue} {xs : List α}
    (h : ∀ x ∈ xs, WordOf number? component x (g x)) :
    ∃ nodes, nodes? (xs.map fun x => .word (component x).text) = some nodes
      ∧ nodes.mapM number? = some (xs.map g) := by
  induction xs with
  | nil => exact ⟨[], rfl, rfl⟩
  | cons x xs ih =>
    obtain ⟨node, hnode, hx⟩ := h x mem_cons_self
    obtain ⟨nodes, hnodes, hxs⟩ := ih fun y hy => h y (mem_cons_of_mem _ hy)
    refine ⟨node :: nodes, nodes?_cons_some hnode hnodes, ?_⟩
    simp [mapM_cons, hx, hxs]

/-! ## §2. Buffers -/

/-- The first `k` components of a buffer that begins with the values. -/
def padded {α : Type} (zero : α) (values : List α) (k : Nat) : List α :=
  (List.range k).map fun i => values.getD i zero

theorem length_padded (zero : α) (values : List α) (k : Nat) :
    (padded zero values k).length = k := by
  simp [padded]

variable {zero : α} {values : List α} {k : Nat}

theorem mem_padded {x : α} (h : x ∈ padded zero values k) : x ∈ values ∨ x = zero := by
  obtain ⟨i, -, rfl⟩ := mem_map.mp h
  by_cases hi : i < values.length
  · left
    rw [getD_eq_getElem?_getD, getElem?_eq_getElem hi]
    exact getElem_mem hi
  · right
    rw [getD_eq_getElem?_getD, getElem?_eq_none (by omega)]
    rfl

theorem padded_map (hg : g zero = zero) (values : List α) (k : Nat) :
    (padded zero values k).map g = padded zero (values.map g) k := by
  unfold padded
  rw [map_map]
  refine map_congr_left fun i _ => ?_
  simp only [Function.comp_apply, getD_eq_getElem?_getD, getElem?_map]
  cases values[i]? with
  | none => exact hg
  | some x => rfl

theorem map_fill (hg : g zero = zero) (values : List α) :
    (Buffer.fill zero values).map g = Buffer.fill zero (values.map g) := by
  refine Vector.ext fun i hi => ?_
  simp only [Buffer.fill, Vector.getElem_map, Vector.getElem_ofFn, getD_eq_getElem?_getD,
    getElem?_map]
  cases values[i]? with
  | none => exact hg
  | some x => rfl

/-- Padding twice pads once. -/
theorem fill_padded (zero : α) (h : values.length ≤ k) :
    Buffer.fill zero (padded zero values k) = Buffer.fill zero values := by
  unfold Buffer.fill
  congr 1
  funext i
  by_cases hi : (i : Nat) < k
  · simp [padded, getD_eq_getElem?_getD, hi]
  · have hpadded : (padded zero values k).length ≤ i := by
      rw [length_padded]
      omega
    rw [getD_eq_getElem?_getD, getElem?_eq_none hpadded, getD_eq_getElem?_getD,
      getElem?_eq_none (by omega)]

theorem filterMap_fill (zero : α) (values : List α) (component : α → ScalarValue) (h : k ≤ 16) :
    (List.range k).filterMap (fun i => (Buffer.fill zero values)[i]?.map component)
      = (padded zero values k).map component := by
  have hplace : ∀ i ∈ List.range k, (Buffer.fill zero values)[i]?.map component
      = some (component (values.getD i zero)) := by
    intro i hi
    rw [Buffer.getElem?_fill, if_pos (Nat.lt_of_lt_of_le (mem_range.mp hi) h), Option.map_some]
  rw [padded, map_map, filterMap_congr hplace]
  exact List.filterMap_eq_map ▸ rfl

/-! ## §3. Constants -/

/-- The constant's text reads as the other constant. -/
def Constant.ReadsAs (env : Env) (c c' : Constant) : Prop :=
  ∃ node, c.layout.node? = some node ∧ node.head? = some "constant"
    ∧ readConstant env node = .ok c'

mutual

/-- The constant with each fractional component replaced. -/
def Constant.mapFloats (g : Single → Single) : Constant → Constant
  | ⟨ty, .array elements⟩ => ⟨ty, .array (Constant.mapFloatsAll g elements)⟩
  | ⟨ty, .float values⟩ => ⟨ty, .float (values.map g)⟩
  | c => c

/-- The constants with each fractional component replaced. -/
def Constant.mapFloatsAll (g : Single → Single) : List Constant → List Constant
  | [] => []
  | c :: rest => Constant.mapFloats g c :: Constant.mapFloatsAll g rest

end

theorem node?_keyword {name : String} (h : IsSymbol name := by decide) :
    (word name).node? = some (.symbol name) :=
  node?_symbol h

variable {ty : Ty}

theorem element?_of_base (h : ty.base ≠ .array) : ty.element? = none := by
  cases ty with
  | array element length => exact absurd rfl h
  | _ => rfl

theorem length_of_mapM {β : Type} {f : α → Option β} {as : List α} {bs : List β}
    (h : as.mapM f = some bs) : as.length = bs.length := by
  induction as generalizing bs with
  | nil =>
    cases h
    rfl
  | cons a as ih =>
    simp only [mapM_cons, Option.bind_eq_bind, Option.bind_eq_some_iff] at h
    obtain ⟨x, -, xs, hxs, h⟩ := h
    cases h
    simp [ih hxs]

/-- One kind of components: how they are stored, made, written and read. -/
structure ComponentKind (α : Type) where
  kind : Scalar
  zero : α
  value : Buffer α → ConstantValue
  component : α → ScalarValue
  number? : Node → Option α
  make : Ty → List α → Except Fault Constant
  make_eq_ok : ∀ ty xs c, make ty xs = .ok c
    ↔ Constant.fits ty kind xs.length = true ∧ c = ⟨ty, value (.fill zero xs)⟩
  component?_eq : ∀ buffer, (value buffer).component? = fun i => buffer[i]?.map component
  layout_eq : ∀ ty buffer, Constant.layout ⟨ty, value buffer⟩
    = .line [.word "constant", ty.layout,
        .line ((Constant.components ⟨ty, value buffer⟩).map fun x => .word x.text)]
  read_eq_ok : ∀ env whole ty nodes c, ty.base = kind.base →
    (readComponents env whole ty nodes = .ok c
      ↔ nodes.length ≤ 16 ∧ ∃ xs, nodes.mapM number? = some xs ∧ make ty xs = .ok c)

variable {c : Constant} {env : Env}

namespace ComponentKind

theorem make_iff {kind : Scalar} {value : Buffer α → ConstantValue} {xs : List α} {f : Fault} :
    (if Constant.fits ty kind xs.length then Except.ok (Constant.mk ty (value (.fill zero xs)))
      else .error f) = .ok c
      ↔ Constant.fits ty kind xs.length = true ∧ c = ⟨ty, value (.fill zero xs)⟩ := by
  split
  next hfits =>
    constructor
    · intro h
      cases h
      exact ⟨hfits, rfl⟩
    · rintro ⟨-, rfl⟩
      rfl
  next hfits => simp [hfits]

theorem read_iff {whole : Node} {nodes : List Node} {number? : Node → Option α}
    {make : Ty → List α → Except Fault Constant} :
    (do
      env.assert whole (.expected .fewerValues) (nodes.length ≤ 16)
      let xs ← readNumbers env whole number? nodes
      env.check whole (make ty xs)) = .ok c
      ↔ nodes.length ≤ 16 ∧ ∃ xs, nodes.mapM number? = some xs ∧ make ty xs = .ok c := by
  simp only [except_bind_eq_ok, Env.assert_eq_ok, readNumbers_eq_ok, Env.check_eq_ok,
    decide_eq_true_eq, exists_const]

def float : ComponentKind Single where
  kind := .float
  zero := .zero _
  value := .float
  component := .float
  number? := single?
  make := Constant.float
  make_eq_ok _ _ _ := make_iff
  component?_eq _ := rfl
  layout_eq _ _ := rfl
  read_eq_ok env whole ty nodes c h := by
    simp only [readComponents, show ty.base = .float from h]
    exact read_iff

def int : ComponentKind Int32 where
  kind := .int
  zero := 0
  value := .int
  component := .int
  number? := int32?
  make := Constant.int
  make_eq_ok _ _ _ := make_iff
  component?_eq _ := rfl
  layout_eq _ _ := rfl
  read_eq_ok env whole ty nodes c h := by
    simp only [readComponents, show ty.base = .int from h]
    exact read_iff

def uint : ComponentKind UInt32 where
  kind := .uint
  zero := 0
  value := .uint
  component := .uint
  number? := uint32?
  make := Constant.uint
  make_eq_ok _ _ _ := make_iff
  component?_eq _ := rfl
  layout_eq _ _ := rfl
  read_eq_ok env whole ty nodes c h := by
    simp only [readComponents, show ty.base = .uint from h]
    exact read_iff

def bool : ComponentKind Bool where
  kind := .bool
  zero := false
  value := .bool
  component := .bool
  number? := bool?
  make := Constant.bool
  make_eq_ok _ _ _ := make_iff
  component?_eq _ := rfl
  layout_eq _ _ := rfl
  read_eq_ok env whole ty nodes c h := by
    simp only [readComponents, show ty.base = .bool from h]
    exact read_iff

/-- Components are read back as they were padded. -/
theorem readsAs (k : ComponentKind α) (henv : env.symbols.SelfNamed) (htype : Typed env ty)
    (made : k.make ty values = .ok c) (hg : g k.zero = k.zero)
    (hwords : ∀ x ∈ padded k.zero values ty.components, k.component x ∈ c.components →
      WordOf k.number? k.component x (g x)) :
    c.ReadsAs env ⟨ty, k.value (.fill k.zero (values.map g))⟩ := by
  obtain ⟨hfits, rfl⟩ := (k.make_eq_ok _ _ _).mp made
  obtain ⟨hbase, hlen⟩ := Constant.fits_iff.mp hfits
  have hnoarray : ty.base ≠ .array := by
    rw [hbase]
    cases k.kind <;> nofun
  have hcomponents : Constant.components ⟨ty, k.value (.fill k.zero values)⟩
      = (padded k.zero values ty.components).map k.component := by
    simp only [Constant.components, k.component?_eq]
    exact filterMap_fill k.zero values k.component ty.components_le
  obtain ⟨nodes, hnodes, hxs⟩ := wordsOf fun x hx =>
    hwords x hx (hcomponents ▸ mem_map_of_mem hx)
  obtain ⟨node, hnode⟩ := htype
  refine ⟨.list [.symbol "constant", node, .list nodes], ?_, rfl, ?_⟩
  · rw [k.layout_eq, hcomponents, map_map]
    exact node?_line_some (nodes?_cons_some node?_keyword
      (nodes?_cons_some (layout_of_readType henv hnode)
        (nodes?_cons_some (node?_line_some hnodes) rfl)))
  · simp only [readConstant, except_bind_eq_ok]
    refine ⟨ty, hnode, ?_⟩
    rw [element?_of_base hnoarray]
    have hle := ty.components_le
    rw [padded_map hg] at hxs
    have hlength := length_of_mapM hxs
    rw [length_padded] at hlength
    refine (k.read_eq_ok _ _ _ _ _ hbase).mpr ⟨by omega, _, hxs, ?_⟩
    refine (k.make_eq_ok _ _ _).mpr ⟨Constant.fits_iff.mpr ⟨hbase, Nat.le_of_eq (length_padded _ _ _)⟩,
      ?_⟩
    rw [fill_padded k.zero (by rwa [length_map])]

theorem rereads (k : ComponentKind α) (henv : env.symbols.SelfNamed) (htype : Typed env ty)
    (made : k.make ty values = .ok c) (hwords : ∀ x, WordOf k.number? k.component x x) :
    c.ReadsAs env c := by
  have hreads := k.readsAs henv htype made (g := id) rfl fun x _ _ => hwords x
  obtain ⟨-, rfl⟩ := (k.make_eq_ok _ _ _).mp made
  rwa [map_id] at hreads

end ComponentKind

theorem Constant.walkAll_eq (depth : Nat) (cs : List Constant) :
    Constant.walkAll depth cs = cs.flatMap (Constant.walk depth) := by
  induction cs with
  | nil => rfl
  | cons c cs ih => simp [Constant.walkAll, ih]

theorem Constant.layouts_eq (cs : List Constant) :
    Constant.layouts cs = cs.map Constant.layout := by
  induction cs with
  | nil => rfl
  | cons c cs ih => simp [Constant.layouts, ih]

theorem Constant.mapFloatsAll_eq (g : Single → Single) (cs : List Constant) :
    Constant.mapFloatsAll g cs = cs.map (Constant.mapFloats g) := by
  induction cs with
  | nil => rfl
  | cons c cs ih => simp [Constant.mapFloatsAll, ih]

@[simp]
theorem Constant.mapFloats_ty (g : Single → Single) (c : Constant) : (c.mapFloats g).ty = c.ty := by
  obtain ⟨ty, value⟩ := c
  cases value <;> rfl

/-- Mapping nothing changes nothing. -/
theorem Constant.mapFloats_id (c : Constant) : c.mapFloats id = c := by
  refine Constant.rec (motive_1 := fun c => c.mapFloats id = c)
    (motive_2 := fun value => ∀ ty, Constant.mapFloats id ⟨ty, value⟩ = ⟨ty, value⟩)
    (motive_3 := fun cs => Constant.mapFloatsAll id cs = cs) ?_ ?_ ?_ ?_ ?_ ?_ ?_ ?_ c
  · intro ty value ih
    exact ih ty
  · intro values ty
    rw [Constant.mapFloats, Vector.map_id]
  · intro values ty
    rfl
  · intro values ty
    rfl
  · intro values ty
    rfl
  · intro elements ih ty
    rw [Constant.mapFloats, ih]
  · rfl
  · intro c cs ih ihs
    rw [Constant.mapFloatsAll, ih, ihs]

theorem readElements_readAs {g : Single → Single} {elements : List Constant}
    (h : ∀ e ∈ elements, e.ReadsAs env (e.mapFloats g)) :
    ∃ nodes, nodes? (elements.map Constant.layout) = some nodes
      ∧ readElements env nodes = .ok (Constant.mapFloatsAll g elements) := by
  induction elements with
  | nil => exact ⟨[], rfl, rfl⟩
  | cons e es ih =>
    obtain ⟨node, hnode, hhead, he⟩ := h e mem_cons_self
    obtain ⟨nodes, hnodes, hes⟩ := ih fun e' he' => h e' (mem_cons_of_mem _ he')
    refine ⟨node :: nodes, nodes?_cons_some hnode hnodes, ?_⟩
    simp only [readElements, except_bind_eq_ok, Env.assert_eq_ok, hhead]
    exact ⟨(), by simp, _, he, _, hes, rfl⟩

/-- The fractional components that the visit meets are read as what the function gives. -/
def Visit.FloatsReadAs (g : Single → Single) : Visit → Prop
  | .constant _ components => ∀ x, ScalarValue.float x ∈ components → x.isFinite = true →
      WordOf single? .float x (g x)
  | _ => True

variable {depth : Nat}

/-- **A constant is read as what its fractional components are read as.** -/
theorem Constant.Made.readsAs (henv : env.symbols.SelfNamed) (h : c.Made env) {g : Single → Single}
    (hg : g (.zero _) = .zero _) (hfloats : ∀ step ∈ c.walk depth, step.visit.FloatsReadAs g) :
    c.ReadsAs env (c.mapFloats g) := by
  induction h generalizing depth with
  | @float ty values c type finite made =>
    have hc : c = ⟨ty, .float (.fill (.zero .single) values)⟩ :=
      ((ComponentKind.float.make_eq_ok _ _ _).mp made).2
    have hmap : c.mapFloats g = ⟨ty, .float (.fill (.zero .single) (values.map g))⟩ := by
      rw [hc, Constant.mapFloats, map_fill hg]
    rw [hmap]
    refine ComponentKind.float.readsAs henv type made hg ?_
    intro x hx hcomponent
    have hfinite : x.isFinite = true := by
      rcases mem_padded hx with hx | rfl
      · exact finite x hx
      · decide
    subst hc
    exact hfloats _ mem_cons_self x hcomponent hfinite
  | @int ty values c type made =>
    have hreads := ComponentKind.int.rereads henv type made wordOf_int
    obtain ⟨-, rfl⟩ := (ComponentKind.int.make_eq_ok _ _ _).mp made
    exact hreads
  | @uint ty values c type made =>
    have hreads := ComponentKind.uint.rereads henv type made wordOf_uint
    obtain ⟨-, rfl⟩ := (ComponentKind.uint.make_eq_ok _ _ _).mp made
    exact hreads
  | @bool ty values c type made =>
    have hreads := ComponentKind.bool.rereads henv type made wordOf_bool
    obtain ⟨-, rfl⟩ := (ComponentKind.bool.make_eq_ok _ _ _).mp made
    exact hreads
  | @array ty elements c type parts made ih =>
    unfold Constant.array at made
    split at made
    next element length =>
      split at made
      next hshape =>
        cases made
        obtain ⟨node, hnode⟩ := type
        have hwalk : ∀ e ∈ elements, ∀ step ∈ e.walk (depth + 1), step.visit.FloatsReadAs g := by
          intro e he step hstep
          refine hfloats step (mem_cons_of_mem _ ?_)
          rw [Constant.walkAll_eq]
          exact mem_flatMap.mpr ⟨e, he, hstep⟩
        obtain ⟨nodes, hnodes, helements⟩ :=
          readElements_readAs fun e he => ih e he (hwalk e he)
        refine ⟨.list [.symbol "constant", node, .list nodes], ?_, rfl, ?_⟩
        · rw [Constant.layout, Constant.layouts_eq]
          exact node?_line_some (nodes?_cons_some node?_keyword
            (nodes?_cons_some (layout_of_readType henv hnode)
              (nodes?_cons_some (node?_line_some hnodes) rfl)))
        · simp only [readConstant, except_bind_eq_ok]
          refine ⟨_, hnode, ?_⟩
          simp only [Ty.element?, Option.isSome_some, if_true, except_bind_eq_ok,
            Env.check_eq_ok]
          refine ⟨_, helements, ?_⟩
          rw [Constant.array, Constant.mapFloats, if_pos]
          rw [Constant.mapFloatsAll_eq]
          simpa using hshape
      next => cases made
    next => cases made

theorem Constant.Made.reread (henv : env.symbols.SelfNamed) (h : c.Made env)
    (hfloats : ∀ step ∈ c.walk depth, step.visit.Survives) : c.ReadsAs env c := by
  have hwords : ∀ step ∈ c.walk depth, step.visit.FloatsReadAs id := by
    intro step hstep
    have hsurvives := hfloats step hstep
    cases hvisit : step.visit with
    | constant ty components =>
      rw [hvisit] at hsurvives
      exact fun x hx hfinite => wordOf_float hfinite (hsurvives x hx)
    | _ => trivial
  have hreads := h.readsAs henv rfl hwords
  rwa [c.mapFloats_id] at hreads

/-! ## §4. The words of rvalues -/

theorem Operator.ofName?_name (op : Operator) : Operator.ofName? op.name = some op := by
  cases op <;> rfl

theorem Operator.isSymbol_name (op : Operator) : IsSymbol op.name := by
  cases op <;> decide

theorem ofChars?_of_head {c : Char} {cs : List Char} (hdigit : c.isDigit = false) (hminus : c ≠ '-')
    (hpoint : c ≠ '.') : Word.ofChars? (c :: cs) = some (.symbol (String.ofList (c :: cs))) := by
  have hsign : splitSign (c :: cs) = (false, c :: cs) := by
    unfold splitSign
    split
    next heq => exact absurd (cons.inj heq).1 hminus
    next => rfl
  have hdecimal : Decimal.unsigned? (c :: cs) = none := by
    unfold Decimal.unsigned?
    simp only [takeWhile_cons, dropWhile_cons, hdigit, Bool.false_eq_true, if_false]
    split
    next heq => exact absurd (cons.inj heq).1 hpoint
    next => rfl
  have hdigits : isDigits (c :: cs) = false := by simp [isDigits, hdigit]
  have hbegins : beginsLikeNumber (c :: cs) = false := by
    unfold beginsLikeNumber
    rw [hsign]
    dsimp only
    split
    next heq =>
      split at heq
      next heq' => exact absurd (cons.inj heq').1 hpoint
      next =>
        cases heq
        exact hdigit
    next => rfl
  simp [Word.ofChars?, Decimal.signed?, hsign, hdecimal, integer?, hdigits, hbegins]

namespace Component

theorem isSymbol_letters {cs : List Component} (h : cs ≠ []) :
    IsSymbol (String.ofList (cs.map (·.letter))) := by
  have hword : ∀ c : Component, isWordChar c.letter = true := by
    intro c
    cases c <;> rfl
  have hhead : ∀ c : Component, c.letter.isDigit = false ∧ c.letter ≠ '-' ∧ c.letter ≠ '.' := by
    intro c
    cases c <;> decide
  obtain ⟨c, rest, rfl⟩ := exists_cons_of_ne_nil h
  obtain ⟨hdigit, hminus, hpoint⟩ := hhead c
  refine ⟨⟨by simp, ?_⟩, ?_⟩
  · intro l hl
    rw [String.toList_ofList] at hl
    obtain ⟨d, -, rfl⟩ := mem_map.mp hl
    exact hword d
  · rw [String.toList_ofList, map_cons]
    exact ofChars?_of_head hdigit hminus hpoint

end Component

theorem SwizzleMask.parse_text (m : SwizzleMask) : SwizzleMask.parse m.text = .ok m := by
  have hmask : ofText? m.text = some m := by
    unfold ofText? SwizzleMask.text
    rw [String.toList_ofList, Component.ofLetters?_letters]
    exact dif_pos ⟨m.nonempty, m.short⟩
  simp [SwizzleMask.parse, hmask]

/-! ## §5. Rvalues -/

/-- The value's text reads as the value. -/
def Rvalue.Rereads (env : Env) (r : Rvalue) : Prop :=
  ∃ node, r.layout.node? = some node ∧ readRvalue env node = .ok r

theorem Rvalue.layouts_eq (rs : List Rvalue) : Rvalue.layouts rs = rs.map Rvalue.layout := by
  induction rs with
  | nil => rfl
  | cons r rs ih => simp [Rvalue.layouts, ih]

theorem Rvalue.Rereads.readsValue {node : Node} {r : Rvalue} (h : readRvalue env node = .ok r) :
    r = env.value node ∧ ReadsValue env node (env.value node) :=
  ⟨(Env.value_eq h).symm, readRvalue_iff.mp (Env.reads_of_ok h)⟩

theorem readsValue_reread {rs : List Rvalue} (h : ∀ r ∈ rs, r.Rereads env) :
    ∃ nodes, nodes? (rs.map Rvalue.layout) = some nodes ∧ rs = nodes.map env.value
      ∧ ∀ x ∈ nodes, ReadsValue env x (env.value x) := by
  induction rs with
  | nil => exact ⟨[], rfl, rfl, nofun⟩
  | cons r rs ih =>
    obtain ⟨node, hnode, hr⟩ := h r mem_cons_self
    obtain ⟨nodes, hnodes, rfl, hrs⟩ := ih fun r' hr' => h r' (mem_cons_of_mem _ hr')
    obtain ⟨rfl, hread⟩ := Rvalue.Rereads.readsValue hr
    exact ⟨node :: nodes, nodes?_cons_some hnode hnodes, rfl, forall_mem_cons.mpr ⟨hread, hrs⟩⟩

theorem wordOf_int8 (x : Int8) :
    ∃ node, (word (toString x.toInt)).node? = some node ∧ int8? node = some x := by
  have hmin := Int8.minValue_le_toInt x
  have hmax := Int8.toInt_le x
  have hlo : Int8.minValue.toInt = -128 := by decide
  have hhi : Int8.maxValue.toInt = 127 := by decide
  obtain ⟨hsome, hvalue⟩ := int64?_of_bounds (n := x.toInt) (by omega) (by omega)
  refine ⟨.int (.ofInt x.toInt), node?_int hsome, ?_⟩
  simp only [int8?, Node.int?, Option.bind_some, hvalue]
  rw [if_pos ⟨hmin, by omega⟩, Int8.ofInt_toInt]

theorem readOffsets_reread (env : Env) (o : Offsets) :
    ∃ node, o.layout.node? = some node ∧ readOffsets env node = .ok o := by
  obtain ⟨x, hx, hx'⟩ := wordOf_int8 o.x
  obtain ⟨y, hy, hy'⟩ := wordOf_int8 o.y
  obtain ⟨z, hz, hz'⟩ := wordOf_int8 o.z
  refine ⟨.list [x, y, z], node?_line_some (nodes?_cons_some hx
    (nodes?_cons_some hy (nodes?_cons_some hz rfl))), ?_⟩
  simp only [readOffsets, except_bind_eq_ok, Env.require_eq_ok]
  exact ⟨o.x, hx', o.y, hy', o.z, hz', rfl⟩

theorem readOptional_reread {o : Option Rvalue} (h : ∀ r ∈ o, r.Rereads env) :
    ∃ node, (Rvalue.layoutOr (.line []) o).node? = some node ∧ readOptional env node = .ok o := by
  cases o with
  | none => exact ⟨.list [], rfl, rfl⟩
  | some r =>
    obtain ⟨node, hnode, hr⟩ := h r rfl
    exact ⟨node, hnode, readOptional_eq_ok.mpr (.inr ⟨r, hr, rfl⟩)⟩

theorem projector_reread {projector : Option Rvalue} (h : ∀ r ∈ projector, r.Rereads env) :
    ∃ p, (Rvalue.layoutOr (.word "1") projector).node? = some p ∧ ∀ q rest,
      (divisor? (p :: q :: rest)).map env.value = projector
        ∧ ∀ x ∈ divisor? (p :: q :: rest), ReadsValue env x (env.value x) := by
  cases projector with
  | none => exact ⟨.int 1, node?_int (n := 1) (by decide), fun q rest => ⟨rfl, nofun⟩⟩
  | some r =>
    obtain ⟨p, hnode, hr⟩ := h r rfl
    obtain ⟨rfl, hread⟩ := Rvalue.Rereads.readsValue hr
    obtain ⟨tag, items, rfl, -⟩ := readRvalue_tag hr
    exact ⟨_, hnode, fun q rest => ⟨rfl, by simpa [divisor?, isUnitProjector] using hread⟩⟩

theorem comparator_reread {comparator : Option Rvalue} (h : ∀ r ∈ comparator, r.Rereads env) :
    ∃ q, (Rvalue.layoutOr (.line []) comparator).node? = some q ∧ ∀ p rest,
      (reference? (p :: q :: rest)).map env.value = comparator
        ∧ ∀ x ∈ reference? (p :: q :: rest), ReadsValue env x (env.value x) := by
  cases comparator with
  | none => exact ⟨.list [], rfl, fun p rest => ⟨rfl, nofun⟩⟩
  | some r =>
    obtain ⟨q, hnode, hr⟩ := h r rfl
    obtain ⟨rfl, hread⟩ := Rvalue.Rereads.readsValue hr
    obtain ⟨tag, items, rfl, -⟩ := readRvalue_tag hr
    exact ⟨_, hnode, fun p rest => ⟨rfl, by simpa [reference?, Node.isEmptyList] using hread⟩⟩

variable {lookup : Lookup}

theorem Texture.layout_filtered (h : lookup.isFetch = false) (ty : Ty) (sampler : Dereference)
    (coordinate : Rvalue) (offsets : Offsets) (projector comparator : Option Rvalue) :
    Texture.layout ⟨lookup, ty, sampler, coordinate, offsets, projector, comparator⟩
      = .line (.word lookup.name :: sampler.layout :: coordinate.layout :: offsets.layout
          :: Rvalue.layoutOr (.word "1") projector :: Rvalue.layoutOr (.line []) comparator
          :: Lookup.layouts lookup) := by
  cases lookup with
  | fetch lod => cases h
  | _ => rfl

theorem Lookup.isSymbol_name (lookup : Lookup) : IsSymbol lookup.name := by
  cases lookup with
  | plain => exact (by decide : IsSymbol "tex")
  | bias amount => exact (by decide : IsSymbol "txb")
  | level lod => exact (by decide : IsSymbol "txl")
  | gradient dx dy => exact (by decide : IsSymbol "txd")
  | fetch lod => exact (by decide : IsSymbol "txf")

/-- The nodes of the levels of detail, behind those of the projector and the comparator unless it is a
    fetch. -/
theorem Lookup.reread (hparts : ∀ r ∈ lookup.operands, r.Rereads env) :
    ∃ tag nodes levels, LookupTag.ofName? lookup.name = some tag
      ∧ nodes? lookup.layouts = some nodes ∧ lookup = tag.make (levels.map env.value)
      ∧ (∀ x ∈ levels, ReadsValue env x (env.value x))
      ∧ ∀ p q, tag.levels? (if lookup.isFetch then nodes else p :: q :: nodes) = some levels := by
  cases lookup with
  | plain => exact ⟨.plain, [], [], rfl, rfl, rfl, nofun, fun p q => rfl⟩
  | bias x | level x | fetch x =>
    obtain ⟨node, hnode, hr⟩ := hparts x mem_cons_self
    obtain ⟨rfl, hread⟩ := Rvalue.Rereads.readsValue hr
    exact ⟨_, [node], [node], rfl, nodes?_cons_some hnode rfl, rfl,
      forall_mem_singleton.mpr hread, fun p q => rfl⟩
  | gradient dx dy =>
    obtain ⟨x, hx, hdx⟩ := hparts dx mem_cons_self
    obtain ⟨y, hy, hdy⟩ := hparts dy (mem_cons_of_mem _ mem_cons_self)
    obtain ⟨rfl, hreadx⟩ := Rvalue.Rereads.readsValue hdx
    obtain ⟨rfl, hready⟩ := Rvalue.Rereads.readsValue hdy
    exact ⟨.gradient, [.list [x, y]], [x, y], rfl, nodes?_cons_some
      (node?_line_some (nodes?_cons_some hx (nodes?_cons_some hy rfl))) rfl, rfl,
      forall_mem_cons.mpr ⟨hreadx, forall_mem_singleton.mpr hready⟩, fun p q => rfl⟩

/-- A lookup is read back from its layout. -/
theorem Texture.reread {sampler : Dereference} {coordinate : Rvalue} {offsets : Offsets}
    {projector comparator : Option Rvalue} {t : Texture}
    (hsampler : (Rvalue.dereference sampler).Rereads env) (hcoordinate : coordinate.Rereads env)
    (hparts : ∀ r ∈ lookup.operands, r.Rereads env) (hp : ∀ r ∈ projector, r.Rereads env)
    (hq : ∀ r ∈ comparator, r.Rereads env)
    (hfetch : lookup.isFetch = true → projector = none ∧ comparator = none)
    (made : Texture.mkTexture lookup sampler coordinate = .ok t) :
    (Rvalue.texture { t with offsets, projector, comparator }).Rereads env := by
  obtain ⟨properties, hproperties, rfl⟩ := mkTexture_eq_ok made
  obtain ⟨sn, hsn, hs⟩ := hsampler
  obtain ⟨cn, hcn, hc⟩ := hcoordinate
  obtain ⟨on, hon, ho⟩ := readOffsets_reread env offsets
  obtain ⟨tag, nodes, levels, htag, hnodes, hmake, hreads, hlevels⟩ := Lookup.reread hparts
  obtain ⟨pn, hpn, hdivisor⟩ := projector_reread hp
  obtain ⟨qn, hqn, hreference⟩ := comparator_reread hq
  obtain ⟨hp', hpread⟩ := hdivisor qn nodes
  obtain ⟨hq', hqread⟩ := hreference pn nodes
  specialize hlevels pn qn
  have hword := node?_symbol lookup.isSymbol_name
  have hsampler := readRvalue_iff.mp hs
  have hcoordinate := readRvalue_iff.mp hc
  rw [hmake] at made
  cases hkind : lookup.isFetch with
  | true =>
    obtain ⟨rfl, rfl⟩ := hfetch hkind
    rw [if_pos hkind] at hlevels
    cases lookup with
    | fetch lod =>
      have hfetch : LookupTag.fetch = tag := Option.some.inj htag
      subst hfetch
      obtain ⟨hdivisor, hreference⟩ := LookupTag.levels?_fetch hlevels
      refine ⟨.list (.symbol "txf" :: sn :: cn :: on :: nodes), ?_, readRvalue_iff.mpr ?_⟩
      · exact node?_line_some (nodes?_cons_some hword (nodes?_cons_some hsn
          (nodes?_cons_some hcn (nodes?_cons_some hon hnodes))))
      · have hread := ReadsValue.texture htag hlevels hsampler hcoordinate ho (by simp [hdivisor])
          (by simp [hreference]) hreads made
        rwa [hdivisor, hreference, ← hmake] at hread
    | _ => cases hkind
  | false =>
    simp only [hkind, Bool.false_eq_true, if_false] at hlevels
    refine ⟨.list (.symbol lookup.name :: sn :: cn :: on :: pn :: qn :: nodes), ?_,
      readRvalue_iff.mpr ?_⟩
    · show (Texture.layout _).node? = _
      rw [Texture.layout_filtered hkind]
      exact node?_line_some (nodes?_cons_some hword
        (nodes?_cons_some hsn (nodes?_cons_some hcn
          (nodes?_cons_some hon (nodes?_cons_some hpn
            (nodes?_cons_some hqn hnodes))))))
    · have hread := ReadsValue.texture htag hlevels hsampler hcoordinate ho hpread hqread hreads made
      rwa [hp', hq', ← hmake] at hread

variable {r : Rvalue}

/-- **The text of a value that the reader made reads as the value.** -/
theorem Rvalue.Made.reread (henv : env.symbols.SelfNamed) (h : r.Made env)
    (hfloats : ∀ step ∈ r.walk depth, step.visit.Survives) : r.Rereads env := by
  induction r using Rvalue.induction generalizing depth with
  | h r ih =>
  have hparts : ∀ x ∈ r.parts, x.Rereads env := fun x hx =>
    ih x hx (h.parts x hx) fun step hstep => hfloats step (Rvalue.mem_walk_of_mem_parts hx hstep)
  cases h with
  | @expression op ty operands r type parts made =>
    obtain ⟨hlen, rfl⟩ := mkExpression_eq_ok.mp made
    obtain ⟨node, hnode⟩ := type
    obtain ⟨nodes, hnodes, rfl, hread⟩ := readsValue_reread hparts
    refine ⟨.list (.symbol "expression" :: node :: .symbol op.name :: nodes), ?_, readRvalue_iff.mpr ?_⟩
    · rw [Rvalue.layout, Rvalue.layouts_eq]
      exact node?_line_some (nodes?_cons_some node?_keyword
        (nodes?_cons_some (layout_of_readType henv hnode)
          (nodes?_cons_some (node?_symbol op.isSymbol_name) hnodes)))
    · exact .expression hnode op.ofName?_name ((length_map _).symm.trans hlen) hread
  | @swizzle value mask r part made =>
    obtain ⟨kind, -, -, rfl⟩ := mkSwizzle_eq_ok made
    obtain ⟨node, hnode, hread⟩ := hparts value mem_cons_self
    have hmask := Component.isSymbol_letters mask.nonempty
    refine ⟨.list [.symbol "swiz", .symbol mask.text, node], ?_, ?_⟩
    · exact node?_line_some (nodes?_cons_some node?_keyword
        (nodes?_cons_some (node?_symbol hmask)
          (nodes?_cons_some hnode rfl)))
    · exact readRvalue_iff.mpr (.swizzle mask.parse_text (readRvalue_iff.mp hread) made)
  | @constant c made =>
    obtain ⟨node, hnode, hhead, hread⟩ := made.reread henv hfloats
    exact ⟨node, hnode, readRvalue_iff.mpr (.constant (readConstant_iff.mp hread))⟩
  | @var name v d bound made =>
    obtain ⟨rfl, -⟩ := mkVariable_eq_ok made
    obtain ⟨rfl, hname⟩ := (SymbolTable.selfNamed_iff.mp henv).findVariable? bound
    refine ⟨.list [.symbol "var_ref", .symbol v.name], ?_, ?_⟩
    · exact node?_line_some (nodes?_cons_some node?_keyword
        (nodes?_cons_some (node?_symbol hname) rfl))
    · exact readRvalue_iff.mpr (.var bound made)
  | @index base index d part place made =>
    obtain ⟨ty, -, -, rfl⟩ := mkIndex_eq_ok made
    obtain ⟨bn, hbn, hbase⟩ := hparts base mem_cons_self
    obtain ⟨kn, hkn, hindex⟩ := hparts index (mem_cons_of_mem _ mem_cons_self)
    refine ⟨.list [.symbol "array_ref", bn, kn], ?_, ?_⟩
    · exact node?_line_some (nodes?_cons_some node?_keyword
        (nodes?_cons_some hbn (nodes?_cons_some hkn rfl)))
    · exact readRvalue_iff.mpr (.index (readRvalue_iff.mp hbase) (readRvalue_iff.mp hindex) made)
  | @call name p i o args parts bound chosen overload =>
    obtain ⟨rfl, hname⟩ := (SymbolTable.selfNamed_iff.mp henv).findFunction? bound
    obtain ⟨nodes, hnodes, rfl, hread⟩ := readsValue_reread hparts
    refine ⟨.list [.symbol "call", .symbol p.name, .list nodes], ?_, ?_⟩
    · rw [Rvalue.layout, Rvalue.layouts_eq]
      exact node?_line_some (nodes?_cons_some node?_keyword
        (nodes?_cons_some (node?_symbol hname)
          (nodes?_cons_some (node?_line_some hnodes) rfl)))
    · exact readRvalue_iff.mpr (.call hread bound chosen overload)
  | @texture lookup sampler coordinate offsets projector comparator t source place levels divisor
      reference unfiltered made =>
    obtain ⟨properties, -, rfl⟩ := mkTexture_eq_ok made
    simp only [Rvalue.parts, forall_mem_append, forall_mem_cons, Option.mem_toList] at hparts
    obtain ⟨⟨⟨hsampler, hcoordinate, hlevels⟩, hdivisor⟩, hreference⟩ := hparts
    exact Texture.reread hsampler hcoordinate hlevels hdivisor hreference unfiltered made

end Shading
