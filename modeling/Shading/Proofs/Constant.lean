/-
  Shading.Proofs.Constant — constants are equal if what can be seen of them is.

  Constants are compared with all sixteen places of their buffers, and only the first of these belong
  to the type.  The rest is zero in every constant that was made, so it decides nothing.
-/
import Mathlib.Data.List.Forall2
import Mathlib.Data.List.GetD
import Shading.Ir.Constant

namespace Shading

open List

variable {α : Type} {kind : Scalar} {found : Nat} {values : List ScalarValue}

/-! ## §1. Constants that were made -/

/-- The constant was made by one of the functions that make constants. -/
inductive Constant.Built : Constant → Prop
  | float {ty : Ty} {values : List Single} {c : Constant} (made : Constant.float ty values = .ok c) :
      Built c
  | int {ty : Ty} {values : List Int32} {c : Constant} (made : Constant.int ty values = .ok c) :
      Built c
  | uint {ty : Ty} {values : List UInt32} {c : Constant} (made : Constant.uint ty values = .ok c) :
      Built c
  | bool {ty : Ty} {values : List Bool} {c : Constant} (made : Constant.bool ty values = .ok c) :
      Built c
  | array {ty : Ty} {elements : List Constant} {c : Constant} (parts : ∀ e ∈ elements, Built e)
      (made : Constant.array ty elements = .ok c) : Built c

/-- Are the components equal?  Fractional ones are compared by value. -/
def ScalarValue.sameValue : ScalarValue → ScalarValue → Bool
  | float x, float y => x.sameValue y
  | x, y => x == y

/-- The types are the same; so are the elements of arrays, one by one, and the components of all
    others. -/
inductive Constant.Agrees : Constant → Constant → Prop
  | array {ty : Ty} {as bs : List Constant} (elements : List.Forall₂ Agrees as bs) :
      Agrees ⟨ty, .array as⟩ ⟨ty, .array bs⟩
  | components {a b : Constant} (type : a.ty = b.ty) (plain : a.ty.element? = none)
      (same : List.Forall₂ (fun x y => x.sameValue y = true) a.components b.components) : Agrees a b

/-! ## §2. Buffers -/

/-- The zero of a kind of components. -/
def Scalar.zero : Scalar → ScalarValue
  | .float => .float (.zero _)
  | .int => .int 0
  | .uint => .uint 0
  | .bool => .bool false

/-- The values, and zeros up to the number of components. -/
def Scalar.padded (kind : Scalar) (count : Nat) (values : List ScalarValue) : List ScalarValue :=
  values ++ List.replicate (count - values.length) kind.zero

/-- The buffer begins with the given values and goes on with zeros, and has room for all components
    of the type. -/
structure Constant.Padded (c : Constant) (kind : Scalar) (values : List ScalarValue) : Prop where
  base : c.ty.base = kind.base
  enough : values.length ≤ c.ty.components
  places : ∀ i, c.value.component? i = if i < 16 then some (values.getD i kind.zero) else none

variable {ty : Ty}

theorem Ty.components_le (ty : Ty) : ty.components ≤ 16 := by
  cases ty with
  | vector kind size => cases size <;> exact Nat.le_of_ble_eq_true rfl
  | matrix columns rows => cases columns <;> cases rows <;> decide
  | _ => exact Nat.le_of_ble_eq_true rfl

/-- A buffer holds the given values first and the zero behind them. -/
theorem Buffer.getElem?_fill (zero : α) (values : List α) (i : Nat) :
    (Buffer.fill zero values)[i]? = if i < 16 then some (values.getD i zero) else none := by
  unfold Buffer.fill
  split
  next h => rw [Vector.getElem?_eq_getElem h, Vector.getElem_ofFn]
  next h => rw [Vector.getElem?_eq_none (Nat.le_of_not_lt h)]

theorem Buffer.map_getElem?_fill {β : Type} (f : α → β) (zero : α) (values : List α) (i : Nat) :
    (Buffer.fill zero values)[i]?.map f
      = if i < 16 then some ((values.map f).getD i (f zero)) else none := by
  rw [Buffer.getElem?_fill, getD_map]
  split <;> rfl

namespace Constant

theorem fits_iff :
    fits ty kind found = true ↔ ty.base = kind.base ∧ found ≤ ty.components := by
  rw [fits, Bool.and_eq_true, beq_iff_eq, decide_eq_true_eq]

variable {c : Constant}

/-- A constant is only made from values that fit its type. -/
theorem eq_of_made {made : Constant} {fault : Fault}
    (h : (if fits ty kind found then Except.ok made else .error fault) = .ok c) :
    c = made ∧ ty.base = kind.base ∧ found ≤ ty.components := by
  split at h
  next hfits =>
    cases h
    exact ⟨rfl, fits_iff.mp hfits⟩
  next => cases h

theorem padded_of_made {value : ConstantValue} {fault : Fault} (hfound : values.length = found)
    (made : (if fits ty kind found then Except.ok (⟨ty, value⟩ : Constant) else .error fault) = .ok c)
    (hplaces : ∀ i, value.component? i = if i < 16 then some (values.getD i kind.zero) else none) :
    c.ty = ty ∧ c.Padded kind values := by
  obtain ⟨rfl, hbase, henough⟩ := eq_of_made made
  exact ⟨rfl, hbase, hfound ▸ henough, hplaces⟩

theorem padded_float {values : List Single} (made : Constant.float ty values = .ok c) :
    c.ty = ty ∧ c.Padded .float (values.map .float) :=
  padded_of_made (length_map _) made (Buffer.map_getElem?_fill _ _ _)

theorem padded_int {values : List Int32} (made : Constant.int ty values = .ok c) :
    c.ty = ty ∧ c.Padded .int (values.map .int) :=
  padded_of_made (length_map _) made (Buffer.map_getElem?_fill _ _ _)

theorem padded_uint {values : List UInt32} (made : Constant.uint ty values = .ok c) :
    c.ty = ty ∧ c.Padded .uint (values.map .uint) :=
  padded_of_made (length_map _) made (Buffer.map_getElem?_fill _ _ _)

theorem padded_bool {values : List Bool} (made : Constant.bool ty values = .ok c) :
    c.ty = ty ∧ c.Padded .bool (values.map .bool) :=
  padded_of_made (length_map _) made (Buffer.map_getElem?_fill _ _ _)

/-- Only array types take elements. -/
theorem array_eq_ok {elements : List Constant} (made : Constant.array ty elements = .ok c) :
    c = ⟨ty, .array elements⟩ ∧ ∃ element length, ty = .array element length := by
  unfold Constant.array at made
  split at made
  next element length =>
    split at made
    · cases made
      exact ⟨rfl, element, length, rfl⟩
    · cases made
  next => cases made

/-- A constant that was built is an array of such constants or holds padded numbers. -/
theorem Built.cases_padded (h : c.Built) :
    (∃ element length elements, c = ⟨.array element length, .array elements⟩
        ∧ ∀ e ∈ elements, e.Built)
      ∨ ∃ kind values, c.Padded kind values := by
  cases h with
  | float made => exact .inr ⟨_, _, (padded_float made).2⟩
  | int made => exact .inr ⟨_, _, (padded_int made).2⟩
  | uint made => exact .inr ⟨_, _, (padded_uint made).2⟩
  | bool made => exact .inr ⟨_, _, (padded_bool made).2⟩
  | array parts made =>
    obtain ⟨rfl, element, length, rfl⟩ := array_eq_ok made
    exact .inl ⟨element, length, _, rfl, parts⟩

/-! ## §3. Components -/

namespace Padded

variable {kind : Scalar} {values : List ScalarValue}

theorem element? (h : c.Padded kind values) : c.ty.element? = none := by
  have hkind := h.base
  cases hty : c.ty with
  | array element length =>
    rw [hty] at hkind
    cases kind <;> cases hkind
  | _ => rfl

/-- The components are the given values, filled up with zeros. -/
theorem components_eq (h : c.Padded kind values) :
    c.components = (List.range c.ty.components).map fun i => values.getD i kind.zero := by
  have hplace : ∀ i ∈ List.range c.ty.components,
      c.value.component? i = some (values.getD i kind.zero) := by
    intro i hi
    rw [h.places, if_pos (Nat.lt_of_lt_of_le (mem_range.mp hi) c.ty.components_le)]
  rw [Constant.components, filterMap_congr hplace]
  exact List.filterMap_eq_map ▸ rfl

/-- **The components are the given values, and zeros behind them.** -/
theorem components (h : c.Padded kind values) :
    c.components = kind.padded c.ty.components values := by
  have henough := h.enough
  rw [h.components_eq, Scalar.padded]
  apply ext_getElem?
  intro i
  rw [getElem?_map]
  by_cases hi : i < c.ty.components
  · rw [getElem?_range hi, Option.map_some]
    by_cases hgiven : i < values.length
    · rw [getElem?_append_left hgiven, getElem?_eq_getElem hgiven,
        getD_eq_getElem _ _ hgiven]
    · rw [getElem?_append_right (by omega), getElem?_replicate, if_pos (by omega),
        getD_eq_default _ _ (by omega)]
  · rw [getElem?_eq_none (by simpa using hi), getElem?_eq_none (by simp; omega)]
    rfl

theorem length_components (h : c.Padded kind values) : c.components.length = c.ty.components := by
  rw [h.components_eq, length_map, length_range]

/-- Behind the components of its type a constant holds zeros only. -/
theorem padding (h : c.Padded kind values) (i : Nat) (hi : c.ty.components ≤ i) (hroom : i < 16) :
    c.value.component? i = some kind.zero := by
  rw [h.places, if_pos hroom, getD_eq_default _ _ (Nat.le_trans h.enough hi)]

end Padded

/-! ## §4. Equality -/

theorem sameValue_zero (kind : Scalar) : kind.zero.sameValue kind.zero = true := by
  cases kind <;> decide +kernel

theorem eq_of_places {make : α → ScalarValue} {values : Buffer α} {f : Nat → ScalarValue}
    (h : ∀ i, values[i]?.map make = if i < 16 then some (f i) else none) {i : Nat} (hi : i < 16) :
    f i = make values[i] := by
  have hplace := h i
  rw [if_pos hi, Vector.getElem?_eq_getElem hi] at hplace
  exact (Option.some.inj hplace).symm

/-- Two contents of one kind are compared in all sixteen places. -/
theorem sameContent_iff {a b : ConstantValue} {f g : Nat → ScalarValue}
    (ha : ∀ i, a.component? i = if i < 16 then some (f i) else none)
    (hb : ∀ i, b.component? i = if i < 16 then some (g i) else none) :
    sameContent a b = true ↔ ∀ i < 16, (f i).sameValue (g i) = true := by
  -- a constant that has a component at some place is no array
  have hfirst : a.component? 0 = some (f 0) ∧ b.component? 0 = some (g 0) := ⟨ha 0, hb 0⟩
  cases a <;> cases b <;> unfold ConstantValue.component? at ha hb hfirst
  case float.float | int.int | uint.uint | bool.bool =>
    simp +contextual [sameContent, eq_of_places ha, eq_of_places hb, ScalarValue.sameValue,
      Vector.ext_iff]
  case array.float | array.int | array.uint | array.bool | array.array => cases hfirst.1
  case float.array | int.array | uint.array | bool.array => cases hfirst.2
  -- components of two kinds differ at the first place
  all_goals
    refine ⟨fun h => absurd h Bool.false_ne_true, fun h => ?_⟩
    have hzero := h 0 (by decide)
    rw [eq_of_places ha (by decide), eq_of_places hb (by decide)] at hzero
    simp [ScalarValue.sameValue] at hzero

variable {a b : Constant}

/-- The places behind the components hold zeros, so the components decide. -/
theorem Padded.sameContent_iff {xs ys : List ScalarValue} (ha : a.Padded kind xs)
    (hb : b.Padded kind ys) (hty : a.ty = b.ty) :
    sameContent a.value b.value = true
      ↔ List.Forall₂ (fun x y => x.sameValue y = true) a.components b.components := by
  rw [Constant.sameContent_iff ha.places hb.places, ha.components_eq, hb.components_eq, hty,
    List.forall₂_map_left_iff, List.forall₂_map_right_iff, List.forall₂_same]
  have hroom := b.ty.components_le
  have hxs := hty ▸ ha.enough
  have hys := hb.enough
  refine ⟨fun h i hi => h i (Nat.lt_of_lt_of_le (mem_range.mp hi) hroom), fun h i hi => ?_⟩
  by_cases hseen : i < b.ty.components
  · exact h i (mem_range.mpr hseen)
  · rw [getD_eq_default _ _ (by omega), getD_eq_default _ _ (by omega)]
    exact sameValue_zero kind

/-- The type of a constant says of what kind its numbers are. -/
theorem Padded.kind_unique {kind' : Scalar} {xs ys : List ScalarValue} (ha : a.Padded kind xs)
    (hb : b.Padded kind' ys) (hty : a.ty = b.ty) : kind = kind' := by
  have hbase : kind.base = kind'.base := ha.base.symm.trans (hty ▸ hb.base)
  cases kind <;> cases kind' <;> first | rfl | cases hbase

/-- Arrays are compared element by element. -/
theorem sameElements_iff {as bs : List Constant}
    (h : ∀ a ∈ as, ∀ b ∈ bs, sameValue a b = true ↔ a.Agrees b) :
    sameElements as bs = true ↔ List.Forall₂ Agrees as bs := by
  induction as generalizing bs with
  | nil => cases bs <;> simp [sameElements]
  | cons a as ih =>
    cases bs with
    | nil => simp [sameElements]
    | cons b bs =>
      rw [sameElements, Bool.and_eq_true, List.forall₂_cons, h a mem_cons_self b mem_cons_self,
        ih fun a ha b hb => h a (mem_cons_of_mem _ ha) b (mem_cons_of_mem _ hb)]

theorem sameValue_eq_true_iff :
    a.sameValue b = true ↔ a.ty = b.ty ∧ sameContent a.value b.value = true := by
  obtain ⟨s, x⟩ := a
  obtain ⟨t, y⟩ := b
  rw [sameValue, Bool.and_eq_true, beq_iff_eq]

theorem Agrees.type_eq (h : a.Agrees b) : a.ty = b.ty := by
  cases h with
  | array elements => rfl
  | components type plain same => exact type

theorem Padded.type_ne (h : c.Padded kind values)
    (element : Ty) (length : UInt32) : c.ty ≠ .array element length := by
  intro hty
  have hplain := h.element?
  rw [hty] at hplain
  cases hplain

/-- Numbers of one type agree if their components do. -/
theorem Padded.sameValue_iff (ha : a.Padded kind values)
    (hb : b.Built) : a.sameValue b = true ↔ a.Agrees b := by
  rw [sameValue_eq_true_iff]
  obtain ⟨element, length, elements, rfl, -⟩ | ⟨kind', values', hb⟩ := hb.cases_padded
  · exact ⟨fun h => absurd h.1 (ha.type_ne _ _), fun h => absurd h.type_eq (ha.type_ne _ _)⟩
  · constructor
    · rintro ⟨hty, hsame⟩
      obtain rfl := ha.kind_unique hb hty
      exact .components hty ha.element? ((ha.sameContent_iff hb hty).mp hsame)
    · intro h
      refine ⟨h.type_eq, ?_⟩
      obtain rfl := ha.kind_unique hb h.type_eq
      cases h with
      | array elements => cases ha.places 0
      | components type plain same => exact (ha.sameContent_iff hb type).mpr same

/-- **Comparing two constants that were built decides whether they agree.** -/
theorem Built.sameValue_iff (ha : a.Built) (hb : b.Built) : a.sameValue b = true ↔ a.Agrees b := by
  induction ha generalizing b with
  | float made => exact (padded_float made).2.sameValue_iff hb
  | int made => exact (padded_int made).2.sameValue_iff hb
  | uint made => exact (padded_uint made).2.sameValue_iff hb
  | bool made => exact (padded_bool made).2.sameValue_iff hb
  | @array ty as _ parts made ih =>
    obtain ⟨rfl, element, length, rfl⟩ := array_eq_ok made
    rw [sameValue_eq_true_iff]
    obtain ⟨element', length', bs, rfl, hbs⟩ | ⟨kind, values, hb⟩ := hb.cases_padded
    · rw [sameContent, sameElements_iff fun a ha b hb => ih a ha (hbs b hb)]
      constructor
      · rintro ⟨hty, hsame⟩
        cases hty
        exact .array hsame
      · intro h
        refine ⟨h.type_eq, ?_⟩
        cases h with
        | array elements => exact elements
        | components type plain same => cases plain
    · exact ⟨fun h => absurd h.1.symm (hb.type_ne _ _), fun h => absurd h.type_eq.symm (hb.type_ne _ _)⟩

/-- **Constants are equal exactly if their types and what can be seen of them are.**  The rest of a
    buffer is zero, the components of a type are all in it, and they begin with the given values. -/
theorem sameValue_iff_agrees :
    (∀ a b : Constant, a.Built → b.Built → (a.sameValue b = true ↔ a.Agrees b))
    ∧ (∀ c : Constant, c.Built → c.ty.components ≤ 16
      ∧ (c.ty.element? = none → c.components.length = c.ty.components
        ∧ ∃ kind : Scalar, ∀ i, c.ty.components ≤ i → i < 16 →
          c.value.component? i = some kind.zero)
      ∧ (c.ty.element? ≠ none → ∀ i, c.value.component? i = none))
    ∧ (∀ ty values c, Constant.float ty values = .ok c →
      c.components = Scalar.float.padded ty.components (values.map .float))
    ∧ (∀ ty values c, Constant.int ty values = .ok c →
      c.components = Scalar.int.padded ty.components (values.map .int))
    ∧ (∀ ty values c, Constant.uint ty values = .ok c →
      c.components = Scalar.uint.padded ty.components (values.map .uint))
    ∧ (∀ ty values c, Constant.bool ty values = .ok c →
      c.components = Scalar.bool.padded ty.components (values.map .bool)) := by
  refine ⟨fun a b ha hb => ha.sameValue_iff hb, fun c h => ⟨c.ty.components_le, ?_⟩, ?_, ?_, ?_, ?_⟩
  · obtain ⟨element, length, elements, rfl, -⟩ | ⟨kind, values, hc⟩ := h.cases_padded
    · exact ⟨nofun, fun _ _ => rfl⟩
    · exact ⟨fun _ => ⟨hc.length_components, kind, hc.padding⟩, fun h => absurd hc.element? h⟩
  · intro ty values c made
    obtain ⟨rfl, hc⟩ := padded_float made
    exact hc.components
  · intro ty values c made
    obtain ⟨rfl, hc⟩ := padded_int made
    exact hc.components
  · intro ty values c made
    obtain ⟨rfl, hc⟩ := padded_uint made
    exact hc.components
  · intro ty values c made
    obtain ⟨rfl, hc⟩ := padded_bool made
    exact hc.components

/-- A pair of numbers in an array of one; the second number is not given. -/
def lonePair (x : Single) : Constant :=
  ⟨.array (.vector .float .two) 1, .array [⟨.vector .float .two, .float (.fill (.zero _) [x])⟩]⟩

theorem built_lonePair (x : Single) : (lonePair x).Built := by
  have hpair : Constant.float (.vector .float .two) [x]
      = .ok ⟨.vector .float .two, .float (.fill (.zero _) [x])⟩ := rfl
  have hmade : Constant.array (.array (.vector .float .two) 1)
      [⟨.vector .float .two, .float (.fill (.zero _) [x])⟩] = .ok (lonePair x) := by
    simp [Constant.array, lonePair]
  exact .array (forall_mem_singleton.mpr (.float hpair)) hmade

/-- The two zeros are equal, and a not-a-number differs from itself, also inside of an array. -/
theorem sameValue_iff_agrees_lonePair :
    (lonePair (.make _ true 0)).Built ∧ (lonePair (.zero _)).Built
      ∧ (lonePair (.make _ true 0)).Agrees (lonePair (.zero _))
      ∧ ¬ (lonePair (.make _ false 0x7fc00000)).Agrees (lonePair (.make _ false 0x7fc00000))
      ∧ ∀ c, Constant.float (.vector .float .two) [.make _ true 0] = .ok c →
        c.components = [.float (.make _ true 0), .float (.zero _)] := by
  obtain ⟨hsame, -, hfloat, -⟩ := sameValue_iff_agrees
  refine ⟨built_lonePair _, built_lonePair _, ?_, ?_, ?_⟩
  · exact (hsame _ _ (built_lonePair _) (built_lonePair _)).mp (by decide +kernel)
  · rw [← hsame _ _ (built_lonePair _) (built_lonePair _)]
    decide +kernel
  · intro c made
    rw [hfloat _ _ c made]
    rfl

end Constant

end Shading
