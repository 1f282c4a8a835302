/-
  Shading.Proofs.Read.Made — the values that the reader makes.

  `Rvalue.Made env r` says how `r` can have been made where names stand for what they do in `env`:
  by the function that makes its node, from parts that were made so too.  It holds of every value
  that the reader returns (`readRvalue_made`), whatever the text looked like, and it is all that the
  theory of the reader needs to know of a value.
-/
import Shading.Proofs.Read.Value
import Shading.Proofs.Walk
import Shading.Proofs.WriteMask

namespace Shading

open List

variable {env : Env}

/-! ## §1. Constants -/

/-- The type can be written down where names stand for what they do in `env`. -/
def Typed (env : Env) (ty : Ty) : Prop := ∃ node, readType env node = .ok ty

/-- The constant was made from a type and finite components, or from elements that were made so. -/
inductive Constant.Made (env : Env) : Constant → Prop
  | float {ty : Ty} {values : List Single} {c : Constant} (type : Typed env ty)
      (finite : ∀ x ∈ values, x.isFinite = true) (made : Constant.float ty values = .ok c) : Made env c
  | int {ty : Ty} {values : List Int32} {c : Constant} (type : Typed env ty)
      (made : Constant.int ty values = .ok c) : Made env c
  | uint {ty : Ty} {values : List UInt32} {c : Constant} (type : Typed env ty)
      (made : Constant.uint ty values = .ok c) : Made env c
  | bool {ty : Ty} {values : List Bool} {c : Constant} (type : Typed env ty)
      (made : Constant.bool ty values = .ok c) : Made env c
  | array {ty : Ty} {elements : List Constant} {c : Constant} (type : Typed env ty)
      (parts : ∀ e ∈ elements, Made env e) (made : Constant.array ty elements = .ok c) : Made env c

variable {whole : Node}

variable {node : Node}

theorem single?_isFinite {x : Single} (h : single? node = some x) : x.isFinite = true := by
  unfold single? at h
  rw [Option.bind_eq_some_iff] at h
  obtain ⟨y, -, h⟩ := h
  dsimp only at h
  split at h
  next hfinite =>
    cases h
    exact hfinite
  next => cases h

theorem mem_of_mapM {α β : Type} {f : α → Option β} {as : List α} {bs : List β}
    (h : as.mapM f = some bs) {b : β} (hb : b ∈ bs) : ∃ a ∈ as, f a = some b := by
  induction as generalizing bs with
  | nil =>
    cases h
    cases hb
  | cons a as ih =>
    simp only [mapM_cons, Option.bind_eq_bind, Option.bind_eq_some_iff] at h
    obtain ⟨x, hx, xs, hxs, h⟩ := h
    cases h
    rcases mem_cons.mp hb with rfl | hb
    · exact ⟨a, mem_cons_self, hx⟩
    · obtain ⟨a', ha', hfa'⟩ := ih hxs hb
      exact ⟨a', mem_cons_of_mem _ ha', hfa'⟩

/-- Components of a type in scope make a constant. -/
theorem readComponents_made {ty : Ty} {nodes : List Node} {c : Constant} (hty : Typed env ty)
    (h : readComponents env whole ty nodes = .ok c) : c.Made env := by
  unfold readComponents at h
  rw [except_bind_eq_ok] at h
  obtain ⟨-, -, h⟩ := h
  split at h
  all_goals first
    | exact absurd h Env.fail_ne_ok
    | simp only [except_bind_eq_ok, readNumbers_eq_ok, Env.check_eq_ok] at h
      obtain ⟨xs, hxs, hc⟩ := h
  · refine .float hty ?_ hc
    intro x hx
    obtain ⟨node, -, hnode⟩ := mem_of_mapM hxs hx
    exact single?_isFinite hnode
  · exact .int hty hc
  · exact .uint hty hc
  · exact .bool hty hc

theorem ReadsConstant.made {c : Constant} (h : ReadsConstant env node c) : c.Made env := by
  induction h with
  | components typed flat read => exact readComponents_made ⟨_, typed⟩ read
  | array typed isArray parts made ih => exact .array ⟨_, typed⟩ (forall_mem_map.mpr ih) made

/-! ## §2. Rvalues -/

/-- Is one texel read without filtering? -/
def Lookup.isFetch : Lookup → Bool
  | fetch _ => true
  | _ => false

/-- The value was made by the function that makes its node, from parts that were made so. -/
inductive Rvalue.Made (env : Env) : Rvalue → Prop
  | expression {op : Operator} {ty : Ty} {operands : List Rvalue} {r : Rvalue}
      (type : Typed env ty) (parts : ∀ x ∈ operands, Made env x)
      (made : Rvalue.mkExpression op ty operands = .ok r) : Made env r
  | swizzle {value : Rvalue} {mask : SwizzleMask} {r : Rvalue} (part : Made env value)
      (made : Rvalue.mkSwizzle value mask = .ok r) : Made env r
  | constant {c : Constant} (made : c.Made env) : Made env (.constant c)
  | var {name : String} {v : Var} {d : Dereference}
      (bound : env.symbols.findVariable? name = some v) (made : Dereference.mkVariable v = .ok d) :
      Made env (.dereference d)
  | index {base index : Rvalue} {d : Dereference} (part : Made env base) (place : Made env index)
      (made : Dereference.mkIndex base index = .ok d) : Made env (.dereference d)
  | call {name : String} {p : Prototype} {i : Nat} {o : Overload} {args : List Rvalue}
      (parts : ∀ x ∈ args, Made env x) (bound : env.symbols.findFunction? name = some p)
      (chosen : p.matching? (args.map (·.ty)) = some i) (overload : p.overloads[i]? = some o) :
      Made env (.call p.name i o.returnType args)
  | texture {lookup : Lookup} {sampler : Dereference} {coordinate : Rvalue} {offsets : Offsets}
      {projector comparator : Option Rvalue} {t : Texture} (source : Made env (.dereference sampler))
      (place : Made env coordinate) (levels : ∀ x ∈ lookup.operands, Made env x)
      (divisor : ∀ x ∈ projector, Made env x) (reference : ∀ x ∈ comparator, Made env x)
      (unfiltered : lookup.isFetch = true → projector = none ∧ comparator = none)
      (made : Texture.mkTexture lookup sampler coordinate = .ok t) :
      Made env (.texture { t with offsets, projector, comparator })

/-! ## §3. What is read was made -/

variable {r : Rvalue}

/-- The parts of a value were made where the value was made. -/
theorem Rvalue.Made.parts (h : r.Made env) : ∀ part ∈ r.parts, part.Made env := by
  cases h with
  | expression type parts made =>
    obtain ⟨-, rfl⟩ := mkExpression_eq_ok.mp made
    exact parts
  | swizzle part made =>
    obtain ⟨kind, -, -, rfl⟩ := mkSwizzle_eq_ok made
    simpa [Rvalue.parts] using part
  | constant made => simp [Rvalue.parts]
  | var bound made =>
    obtain ⟨rfl, -⟩ := mkVariable_eq_ok made
    simp [Rvalue.parts]
  | index part place made =>
    obtain ⟨ty, -, -, rfl⟩ := mkIndex_eq_ok made
    simpa [Rvalue.parts] using ⟨part, place⟩
  | call parts bound chosen overload => exact parts
  | texture source place levels divisor reference unfiltered made =>
    obtain ⟨s, -, rfl⟩ := mkTexture_eq_ok made
    simp only [Rvalue.parts, forall_mem_append, forall_mem_cons, Option.mem_toList]
    exact ⟨⟨⟨source, place, levels⟩, divisor⟩, reference⟩

theorem LookupTag.mem_operands_make {tag : LookupTag} {rs : List Rvalue}
    (h : r ∈ (tag.make rs).operands) : r ∈ rs := by
  unfold LookupTag.make at h
  split at h
  all_goals simp_all [Lookup.operands]

theorem LookupTag.isFetch_make {tag : LookupTag} {rs : List Rvalue} (h : (tag.make rs).isFetch = true) :
    tag = .fetch := by
  unfold LookupTag.make at h
  split at h
  all_goals first | rfl | cases h

/-- A fetch has no divisor and no reference. -/
theorem LookupTag.levels?_fetch {extras levels : List Node}
    (h : LookupTag.fetch.levels? extras = some levels) :
    divisor? extras = none ∧ reference? extras = none := by
  unfold LookupTag.levels? at h
  split at h
  all_goals first
    | exact ⟨rfl, rfl⟩
    | cases h
  all_goals contradiction

/-- **Every value that is read was made.** -/
theorem readRvalue_made (h : readRvalue env node = .ok r) : r.Made env := by
  replace h := readRvalue_iff.mp h
  induction h with
  | expression typed named count parts ih =>
    exact .expression ⟨_, typed⟩ (forall_mem_map.mpr ih)
      (mkExpression_eq_ok.mpr ⟨by rw [length_map, count], rfl⟩)
  | swizzle letters part made ih => exact .swizzle ih made
  | constant read => exact .constant read.made
  | var bound made => exact .var bound made
  | index part place made ih1 ih2 => exact .index ih1 ih2 made
  | call parts bound chosen overload ih => exact .call (forall_mem_map.mpr ih) bound chosen overload
  | texture kind chosen source place shift divisor reference parts made ih1 ih2 ih3 ih4 ih5 =>
    refine .texture ih1 ih2 (fun x hx => ?_) (by simpa using ih3) (by simpa using ih4) (fun hfetch => ?_)
      made
    · exact forall_mem_map.mpr ih5 x (LookupTag.mem_operands_make hx)
    · rw [LookupTag.isFetch_make hfetch] at chosen
      obtain ⟨hdivisor, hreference⟩ := LookupTag.levels?_fetch chosen
      rw [hdivisor, hreference]
      exact ⟨rfl, rfl⟩

/-! ## §4. Statements without blocks -/

/-- Every value that is read from a node with the first property has the second one.  The items of a
    list have the first property if the list does. -/
structure Env.Gives (env : Env) (Q : Node → Prop) (M : Rvalue → Prop) : Prop where
  items : ∀ {items : List Node}, Q (.list items) → ∀ x ∈ items, Q x
  value : ∀ {node : Node} {r : Rvalue}, Q node → readRvalue env node = .ok r → M r

theorem Env.gives_made (env : Env) : env.Gives (fun _ => True) (Rvalue.Made env) :=
  ⟨fun _ _ _ => trivial, fun _ => readRvalue_made⟩

namespace Env.Gives

variable {Q : Node → Prop} {M : Rvalue → Prop} (hM : env.Gives Q M)
include hM

theorem readOptional {o : Option Rvalue} (hnode : Q node) (h : Shading.readOptional env node = .ok o) :
    ∀ r ∈ o, M r := by
  obtain ⟨-, rfl⟩ | ⟨value, hvalue, rfl⟩ := readOptional_eq_ok.mp h
  · exact nofun
  · simpa using hM.value hnode hvalue

/-- The parts of an assignment are made where it is read. -/
theorem readAssignment {a : Assignment} (hnode : Q node)
    (h : Shading.readAssignment env node = .ok a) :
    (∀ r ∈ a.condition, M r) ∧ M (.dereference a.lhs) ∧ M a.rhs
      ∧ Assignment.MaskFits a.lhs.ty a.mask := by
  obtain ⟨condition, mask, lhs, rhs, c, letters, target, value, rfl, hc, -, hlhs, hrhs, ha⟩ :=
    readAssignment_eq_ok.mp h
  obtain ⟨m, rfl, hfits⟩ := Assignment.withMask_eq_ok ha
  have hitems := hM.items hnode
  exact ⟨hM.readOptional (hitems condition (by simp)) hc, hM.value (hitems lhs (by simp)) hlhs,
    hM.value (hitems rhs (by simp)) hrhs, hfits⟩

theorem readReturn {parts : List Node} {value : Option Rvalue}
    (hnode : Q (.list (.symbol "return" :: parts)))
    (h : Shading.readReturn env (.list (.symbol "return" :: parts)) = .ok value) :
    ∀ r ∈ value, M r := by
  obtain ⟨-, rfl⟩ | ⟨node, x, rfl, hx, rfl⟩ := readReturn_eq_ok.mp h
  · exact nofun
  · simpa using hM.value (hM.items hnode node (by simp)) hx

theorem readControl {o : Option Rvalue} (hnode : Q node) (h : Shading.readControl env node = .ok o) :
    ∀ r ∈ o, M r := by
  obtain ⟨-, rfl⟩ | ⟨inner, x, rfl, hx, rfl⟩ := readControl_eq_ok.mp h
  · exact nofun
  · simpa using hM.value (hM.items hnode inner (by simp)) hx

/-- The controls of a loop are made where they are read. -/
theorem readControls {counter start stop increment : Node} {c : Controls}
    (hnodes : ∀ node ∈ [start, stop, increment], Q node)
    (h : Shading.readControls env whole counter start stop increment = .ok c) :
    (∀ v ∈ c.counter, ∃ name, env.symbols.findVariable? name = some v)
      ∧ (∀ r ∈ c.start, M r) ∧ (∀ r ∈ c.stop, M r) ∧ ∀ r ∈ c.increment, M r := by
  obtain ⟨hcounter, hstart, hincrement, terminator, hstop, -, hvalue⟩ := readControls_eq_ok.mp h
  simp only [forall_mem_cons] at hnodes
  refine ⟨?_, hM.readControl hnodes.1 hstart, ?_, hM.readControl hnodes.2.2.1 hincrement⟩
  · intro v hv
    obtain ⟨-, hnone⟩ | ⟨name, w, -, hw, hsome⟩ := readCounter_eq_ok.mp hcounter
    · rw [hnone] at hv
      cases hv
    · rw [hsome] at hv
      cases hv
      exact ⟨name, hw⟩
  · rw [hvalue]
    obtain ⟨-, rfl⟩ | ⟨name, inner, op, x, rfl, -, hx, rfl⟩ := readTerminator_eq_ok.mp hstop
    · exact nofun
    · simpa using hM.value (hM.items hnodes.2.1 inner (by simp)) hx

end Env.Gives

theorem readAssignment_made {a : Assignment} (h : readAssignment env node = .ok a) :
    (∀ r ∈ a.condition, r.Made env) ∧ (Rvalue.dereference a.lhs).Made env ∧ a.rhs.Made env
      ∧ Assignment.MaskFits a.lhs.ty a.mask :=
  env.gives_made.readAssignment trivial h

theorem readReturn_made {parts : List Node} {value : Option Rvalue}
    (h : readReturn env (.list (.symbol "return" :: parts)) = .ok value) :
    ∀ r ∈ value, r.Made env :=
  env.gives_made.readReturn trivial h

theorem readControls_made {counter start stop increment : Node} {c : Controls}
    (h : readControls env whole counter start stop increment = .ok c) :
    (∀ v ∈ c.counter, ∃ name, env.symbols.findVariable? name = some v)
      ∧ (∀ r ∈ c.start, r.Made env) ∧ (∀ r ∈ c.stop, r.Made env)
      ∧ ∀ r ∈ c.increment, r.Made env :=
  env.gives_made.readControls (fun _ _ => trivial) h

end Shading
