/-
  Shading.Proofs.RoundTrip.Float — what becomes of fractional components that are written and read.

  The writer takes the fewest digits that tell a component from its 32-bit neighbours, the reader goes
  by way of 64 bits.  Every text is accepted, and all components come back but `7.038531e-26`, whose
  numeral lies so near below the middle to its upper neighbour that the reader takes the neighbour.
-/
import Shading.Proofs.Number.Survival
import Shading.Proofs.RoundTrip.Value
import Shading.Proofs.Sexp.Inverse

namespace Shading

/-! ## §1. Words -/

theorem Layout.text_word (text : String) : (Layout.word text).text = text := by
  simp [Layout.text, Layout.render]

variable {x : Single}

/-- The text of a number spells what it is read back as. -/
theorem Binary.convert_signed?_text (hx : x.isFinite = true) :
    ∃ d, Decimal.signed? x.text.toList = some (x.negative, d)
      ∧ (d.toBinary .double x.negative).convert .single = x.afterText := by
  rw [text_eq hx]
  by_cases hzero : x.magnitude = 0
  · refine ⟨⟨0, -1⟩, ?_, ?_⟩
    · rw [if_pos hzero]
      exact Decimal.signed?_sign rfl x.negative
    · have hkept : ∀ negative, ((⟨0, -1⟩ : Decimal).toBinary .double negative).convert .single
          = make .single negative 0 := by
        decide
      rw [hkept, ← hzero, make_magnitude, afterText, if_neg (by rw [hzero]; decide)]
  · have hdigits := (Decimal.order_of_round (round_shortest_single hx hzero)
      (Nat.pos_of_ne_zero hzero) (of_decide_eq_true hx)).1
    obtain ⟨d, hd, hsame⟩ := Decimal.unsigned?_chars Format.wide_double.fraction hdigits
    refine ⟨d, ?_, ?_⟩
    · rw [if_neg hzero]
      exact Decimal.signed?_sign hd x.negative
    · rw [← convert_shortest hx hzero, Decimal.toBinary, hsame]
      rfl

/-- **The word of a component is accepted, and read as the component with one exception.** -/
theorem node?_text (hx : x.isFinite = true) :
    ∃ y : Double, (Layout.word x.text).node? = some (.float y)
      ∧ y.convert .single = x.afterText := by
  obtain ⟨d, hd, hafter⟩ := x.convert_signed?_text hx
  have hfinite := isFinite_of_convert (hafter ▸ Binary.isFinite_afterText hx)
  exact ⟨_, Layout.node?_float hd hfinite, hafter⟩

theorem wordOf_afterText (hx : x.isFinite = true) : WordOf single? .float x x.afterText := by
  obtain ⟨y, hnode, hafter⟩ := node?_text hx
  refine ⟨_, hnode, ?_⟩
  simp [single?, Node.number?, hafter, Binary.isFinite_afterText hx]

/-! ## §2. Constants -/

mutual

/-- All fractional components of a constant. -/
def Constant.floats : Constant → List Single
  | ⟨_, .array elements⟩ => Constant.floatsAll elements
  | ⟨_, .float values⟩ => values.toList
  | _ => []

/-- All fractional components of the constants. -/
def Constant.floatsAll : List Constant → List Single
  | [] => []
  | c :: rest => Constant.floats c ++ Constant.floatsAll rest

end

theorem Constant.mapFloats_eq_self_iff (g : Single → Single) (c : Constant) :
    c.mapFloats g = c ↔ ∀ x ∈ c.floats, g x = x := by
  refine Constant.rec (motive_1 := fun c => c.mapFloats g = c ↔ ∀ x ∈ c.floats, g x = x)
    (motive_2 := fun value => ∀ ty, Constant.mapFloats g ⟨ty, value⟩ = ⟨ty, value⟩
      ↔ ∀ x ∈ Constant.floats ⟨ty, value⟩, g x = x)
    (motive_3 := fun cs => Constant.mapFloatsAll g cs = cs ↔ ∀ x ∈ Constant.floatsAll cs, g x = x)
    ?_ ?_ ?_ ?_ ?_ ?_ ?_ ?_ c
  · intro ty value ih
    exact ih ty
  · intro values ty
    have hlist := List.map_inj_left (l := values.toList) (f := g) (g := id)
    rw [List.map_id, ← Vector.toList_map, Vector.toList_inj] at hlist
    simp only [Constant.mapFloats, Constant.floats, Constant.mk.injEq, true_and,
      ConstantValue.float.injEq]
    exact hlist
  · intro values ty
    simp [Constant.mapFloats, Constant.floats]
  · intro values ty
    simp [Constant.mapFloats, Constant.floats]
  · intro values ty
    simp [Constant.mapFloats, Constant.floats]
  · intro elements ih ty
    simp [Constant.mapFloats, Constant.floats, ih]
  · simp [Constant.mapFloatsAll, Constant.floatsAll]
  · intro c cs ih ihs
    simp only [Constant.mapFloatsAll, Constant.floatsAll, List.cons.injEq, ih, ihs,
      List.forall_mem_append]

/-- **Float constants come back from their text, with one exception.**  The text of every finite
    number is accepted and read as the number, except that `± 7.038531e-26` is read as its neighbour;
    and every constant is read with the components that its components are read as. -/
theorem readConstant_text (env : Env) (henv : env.symbols.SelfNamed) :
    (∀ x : Single, x.isFinite = true → ∃ y : Double, readExpression x.text = .ok (.float y)
        ∧ single? (.float y) = some x.afterText ∧ (x.afterText = x ↔ x.magnitude ≠ frail))
      ∧ ∀ node c, readConstant env node = .ok c →
        ∃ node', readExpression (Rvalue.constant c).text = .ok node'
          ∧ readConstant env node' = .ok (c.mapFloats Binary.afterText)
          ∧ (c.mapFloats Binary.afterText = c ↔ ∀ x ∈ c.floats, x.magnitude ≠ frail) := by
  constructor
  · intro x hx
    obtain ⟨y, hnode, hafter⟩ := node?_text hx
    have hread := readExpression_of_layout hnode
    rw [Layout.text_word] at hread
    refine ⟨y, hread, ?_, Binary.afterText_eq_self_iff⟩
    simp [single?, Node.number?, hafter, Binary.isFinite_afterText hx]
  · intro node c hc
    have hwords : ∀ step ∈ c.walk 0, step.visit.FloatsReadAs Binary.afterText := by
      intro step _
      cases step.visit with
      | constant ty components => exact fun x _ hfinite => wordOf_afterText hfinite
      | _ => trivial
    obtain ⟨node', hnode', -, hread⟩ := ((readConstant_iff.mp hc).made).readsAs henv (by decide) hwords
    refine ⟨node', readExpression_of_layout hnode', hread, ?_⟩
    rw [c.mapFloats_eq_self_iff]
    exact forall₂_congr fun x _ => Binary.afterText_eq_self_iff

/-- A vector of the number that gets lost and one tenth. -/
def frailPair : Node :=
  .list [.symbol "constant", .symbol "vec2",
    .list [.float (.make .double false 4230507875455205376),
      .float (.make .double false 4591870180066957722)]]

/-- The vector is accepted and so is its text, but another vector comes back. -/
theorem readConstant_text_frailPair :
    ∃ c node', readConstant ⟨.withBuiltins, none⟩ frailPair = .ok c
      ∧ readExpression (Rvalue.constant c).text = .ok node'
      ∧ readConstant ⟨.withBuiltins, none⟩ node' = .ok (c.mapFloats Binary.afterText)
      ∧ c.mapFloats Binary.afterText ≠ c := by
  have hcheck : (match readConstant ⟨.withBuiltins, none⟩ frailPair with
      | .ok c => c.floats.any fun x => x.magnitude == frail
      | .error _ => false) = true := by decide +kernel
  cases hread : readConstant ⟨.withBuiltins, none⟩ frailPair with
  | error e =>
    rw [hread] at hcheck
    cases hcheck
  | ok c =>
    rw [hread] at hcheck
    obtain ⟨x, hx, hfrail⟩ := List.any_eq_true.mp hcheck
    have hnamed : (Env.mk .withBuiltins none).symbols.SelfNamed := by
      dsimp only
      exact SymbolTable.selfNamed_withBuiltins
    obtain ⟨node', htext, hback, hsame⟩ :=
      (readConstant_text ⟨.withBuiltins, none⟩ hnamed).2 frailPair c hread
    exact ⟨c, node', rfl, htext, hback, fun h => hsame.mp h x hx (beq_iff_eq.mp hfrail)⟩

end Shading
