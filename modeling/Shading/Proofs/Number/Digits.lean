/-
  Shading.Proofs.Number.Digits — how many digits a shortest numeral has.

  The decimal grid with `n` digits around a number of order `k` has the width `10 ^ (k - n)`.  With nine
  digits it is finer than the 32-bit numbers: both neighbours of a number on the grid are nearer to it
  than a third of the way to the next number.  So nine digits always suffice.
-/
import Shading.Proofs.Number.Narrowing

namespace Shading

/-! ## §1. Orders -/

/-- The number that a ratio stands for. -/
def Ratio.value (r : Ratio) : ℚ := r.num / r.den

section

variable {r : Ratio} (hnum : 0 < r.num) (hden : 0 < r.den)

include hnum hden

/-- **The order of a ratio is the number of digits before its point.** -/
theorem Ratio.order_spec : (10 : ℚ) ^ (r.order - 1) ≤ r.value ∧ r.value < 10 ^ r.order := by
  have hnum' : (0 : ℚ) < r.num := by exact_mod_cast hnum
  have hden' : (0 : ℚ) < r.den := by exact_mod_cast hden
  unfold order value
  split
  next hle =>
    -- the digits of the whole part are counted
    have hpos : 0 < r.num / r.den := Nat.div_pos hle hden
    have hlow := pow_decimalLength_le hpos
    have hhigh := lt_pow_decimalLength (r.num / r.den)
    have hlength := decimalLength_pos (r.num / r.den)
    generalize decimalLength (r.num / r.den) = k at *
    rw [Nat.le_div_iff_mul_le hden] at hlow
    rw [Nat.div_lt_iff_lt_mul hden] at hhigh
    constructor
    · rw [le_div_iff₀ hden', show (k : ℤ) - 1 = ((k - 1 : Nat) : ℤ) by omega, zpow_natCast]
      exact_mod_cast hlow
    · rw [div_lt_iff₀ hden', zpow_natCast]
      exact_mod_cast hhigh
  next hlt =>
    -- the zeros after the point are counted, on the inverse of the ratio
    have hpos : 0 < (r.den - 1) / r.num := Nat.div_pos (by omega) hnum
    have hlow := pow_decimalLength_le hpos
    have hhigh := lt_pow_decimalLength ((r.den - 1) / r.num)
    have hlength := decimalLength_pos ((r.den - 1) / r.num)
    generalize decimalLength ((r.den - 1) / r.num) = k at *
    rw [Nat.le_div_iff_mul_le hnum] at hlow
    rw [Nat.div_lt_iff_lt_mul hnum] at hhigh
    have hlow' : 10 ^ (k - 1) * r.num < r.den := by omega
    have hhigh' : r.den ≤ 10 ^ k * r.num := by omega
    constructor
    · rw [le_div_iff₀ hden', show 1 - (k : ℤ) - 1 = -(k : ℤ) by ring, zpow_neg, zpow_natCast,
        inv_mul_le_iff₀ (by positivity)]
      exact_mod_cast hhigh'
    · rw [div_lt_iff₀ hden', show 1 - (k : ℤ) = -((k - 1 : Nat) : ℤ) by omega, zpow_neg,
        zpow_natCast, lt_inv_mul_iff₀ (by positivity)]
      exact_mod_cast hlow'

/-! ## §2. Numerals on the grid -/

/-- The quotient is the ratio rounded down to a multiple of the power. -/
theorem Ratio.divPow_spec (g : ℤ) :
    ((r.divPow g).1 : ℚ) * 10 ^ g ≤ r.value ∧ r.value < ((r.divPow g).1 + 1 : ℚ) * 10 ^ g := by
  have hden' : (0 : ℚ) < r.den := by exact_mod_cast hden
  generalize hn : r.num * 10 ^ (-g).toNat = n
  generalize hd : r.den * 10 ^ g.toNat = d
  have hdpos : 0 < d := by
    rw [← hd]
    exact Nat.mul_pos hden (Nat.pow_pos (by decide))
  have hdpos' : (0 : ℚ) < d := by exact_mod_cast hdpos
  have hquotient : (r.divPow g).1 = n / d := by
    rw [← hn, ← hd]
    rfl
  have hvalue : r.value = n / d * 10 ^ g := by
    rw [← hn, ← hd, value, zpow_eq_div (by norm_num)]
    push_cast
    field_simp
  have hpow : (0 : ℚ) < 10 ^ g := by positivity
  have hsplit := Nat.div_add_mod n d
  have hrest := Nat.mod_lt n hdpos
  have hlow : n / d * d ≤ n := Nat.div_mul_le_self n d
  have hhigh : n < (n / d + 1) * d := by
    rw [Nat.add_mul, Nat.one_mul, Nat.mul_comm]
    omega
  rw [hquotient, hvalue]
  constructor
  · refine mul_le_mul_of_nonneg_right ?_ hpow.le
    rw [le_div_iff₀ hdpos']
    exact_mod_cast hlow
  · refine mul_lt_mul_of_pos_right ?_ hpow
    rw [div_lt_iff₀ hdpos']
    exact_mod_cast hhigh

/-- Cut off `n` places below its order, a ratio has at most `n` digits. -/
theorem Ratio.divPow_digits (n : Nat) : (r.divPow (r.order - n)).1 < 10 ^ n := by
  obtain ⟨hlow, -⟩ := Ratio.divPow_spec hnum hden (r.order - n)
  obtain ⟨-, hhigh⟩ := Ratio.order_spec hnum hden
  have hpow : (0 : ℚ) < 10 ^ (r.order - n) := by positivity
  have hlt : ((r.divPow (r.order - n)).1 : ℚ) * 10 ^ (r.order - n)
      < 10 ^ n * 10 ^ (r.order - n) := by
    calc _ ≤ r.value := hlow
      _ < 10 ^ r.order := hhigh
      _ = 10 ^ n * 10 ^ (r.order - n) := by
        rw [← zpow_natCast, ← zpow_add₀ (by norm_num)]
        congr 1
        ring
  exact_mod_cast lt_of_mul_lt_mul_right hlt hpow.le

/-- **A numeral that is found is on the grid, next to the ratio.** -/
theorem Format.withDigits_spec {f : Format} {magnitude n : Nat} {d : Decimal}
    (h : f.withDigits magnitude r n = some d) :
    d.exponent = r.order - n ∧ d.digits ≤ 10 ^ n
      ∧ |d.value - r.value| ≤ 10 ^ (r.order - n) := by
  obtain ⟨hlow, hhigh⟩ := Ratio.divPow_spec hnum hden (r.order - n)
  have hdigits := Ratio.divPow_digits hnum hden n
  have hcases : d = ⟨(r.divPow (r.order - n)).1, r.order - n⟩
      ∨ d = ⟨(r.divPow (r.order - n)).1 + 1, r.order - n⟩ := by
    unfold withDigits at h
    dsimp only at h
    split at h
    next =>
      split at h
      · exact Or.inl (Option.some.inj h).symm
      · exact Or.inr (Option.some.inj h).symm
    next => exact Or.inl (Option.some.inj h).symm
    next => exact Or.inr (Option.some.inj h).symm
    next => cases h
  generalize (r.divPow (r.order - n)).1 = quotient at *
  have hpow : (0 : ℚ) < 10 ^ (r.order - n) := by positivity
  rcases hcases with rfl | rfl
  · refine ⟨rfl, hdigits.le, ?_⟩
    rw [Decimal.value, abs_le]
    constructor <;> dsimp only <;> linarith
  · refine ⟨rfl, hdigits, ?_⟩
    rw [Decimal.value, abs_le]
    push_cast
    constructor <;> linarith

end

/-! ## §3. Nine digits -/

theorem Format.single_leastPower : Format.single.leastPower = -149 := by decide

namespace Binary

variable {x : Single}

theorem ratio_den_pos (x : Single) : 0 < x.ratio.den := Nat.two_pow_pos _

theorem ratio_num_pos (hx : x.magnitude ≠ 0) : 0 < x.ratio.num :=
  Nat.mul_pos (x.significand_pos hx) (Nat.two_pow_pos _)

theorem ratio_value (x : Single) : x.ratio.value = Format.single.value x.magnitude :=
  x.ratio_eq_value

theorem value_lt (x : Single) : x.ratio.value < 2 ^ (x.power + 24) := by
  have hunits := Format.single.units_lt x.magnitude
  have hbits : 2 * 2 ^ Format.single.fractionBits = 2 ^ 24 := by decide
  rw [hbits] at hunits
  have hcast : (Format.single.units x.magnitude : ℚ) < 2 ^ 24 := by exact_mod_cast hunits
  have hpos : (0 : ℚ) < 2 ^ x.power := by positivity
  rw [x.ratio_value, Format.value, ← x.power_eq]
  calc (Format.single.units x.magnitude : ℚ) * 2 ^ x.power < 2 ^ 24 * 2 ^ x.power :=
        mul_lt_mul_of_pos_right hcast hpos
    _ = 2 ^ (x.power + 24) := by
        rw [zpow_add₀ (by norm_num), mul_comm]
        norm_cast

/-- Nine digits are finer than a fifth of the last place. -/
theorem grid_lt (hx : x.magnitude ≠ 0) : (10 : ℚ) ^ (x.ratio.order - 9) < 2 ^ x.power / 5 := by
  obtain ⟨hlow, -⟩ := Ratio.order_spec (ratio_num_pos hx) x.ratio_den_pos
  have hhigh := x.value_lt
  have hgrid : (10 : ℚ) ^ (x.ratio.order - 9) = 10 ^ (x.ratio.order - 1) / 10 ^ 8 := by
    rw [show x.ratio.order - 9 = x.ratio.order - 1 - (8 : Nat) by push_cast; ring,
      zpow_sub₀ (by norm_num), zpow_natCast]
  have hplace : (2 : ℚ) ^ (x.power + 24) = 2 ^ x.power * 2 ^ 24 := by
    rw [zpow_add₀ (by norm_num)]
    norm_cast
  rw [hplace] at hhigh
  rw [hgrid, div_lt_iff₀ (by norm_num)]
  have hpos : (0 : ℚ) < 2 ^ x.power := by positivity
  linarith

/-- A value just below a number is rounded to it. -/
theorem nearest_below {q : ℚ} (hle : q ≤ x.ratio.value) (hgt : x.ratio.value - q < 2 ^ x.power / 5) :
    Format.single.Nearest q x.magnitude := by
  rw [x.ratio_value] at hle hgt
  refine Format.nearest_of_lt (hle.trans_lt (Format.single.value_lt_middle _)) ?_
  intro k hk
  have hplace : x.power - 1 ≤ Format.single.lastPlace k := by
    have hbits : 2 ^ Format.single.fractionBits = 8388608 := by decide
    rw [x.power_eq]
    unfold Format.lastPlace Format.binade
    rw [hbits]
    omega
  have hpow : (2 : ℚ) ^ (x.power - 1) ≤ 2 ^ Format.single.lastPlace k :=
    zpow_le_zpow_right₀ (by norm_num) hplace
  have hnext := Format.single.value_succ k
  have hpos : (0 : ℚ) < 2 ^ x.power := by positivity
  rw [zpow_sub_one₀ (by norm_num)] at hpow
  rw [← hk] at hnext
  rw [Format.middle_eq]
  linarith

theorem power_range (hx : x.isFinite = true) : -149 ≤ x.power ∧ x.power ≤ 104 := by
  have hfinite : x.magnitude < Format.single.infinity := of_decide_eq_true hx
  have hinfinity : Format.single.infinity = 255 * 8388608 := by decide
  have hbits : 2 ^ Format.single.fractionBits = 8388608 := by decide
  rw [hinfinity] at hfinite
  rw [x.power_eq, Format.lastPlace, Format.single_leastPower, Format.binade, hbits]
  omega

section

variable (hx : x.isFinite = true) (hzero : x.magnitude ≠ 0)

include hx hzero

/-- The orders that finite numbers have. -/
theorem order_range : -44 ≤ x.ratio.order ∧ x.ratio.order ≤ 39 := by
  obtain ⟨hlow, hhigh⟩ := Ratio.order_spec (ratio_num_pos hzero) x.ratio_den_pos
  obtain ⟨hpower, hpower'⟩ := power_range hx
  constructor
  · -- the least number is above `10 ^ (-45)`
    have hleast : (10 : ℚ) ^ (-45 : ℤ) < x.ratio.value := by
      have hone : Format.single.value 1 ≤ x.ratio.value := by
        rw [x.ratio_value]
        exact Format.single.value_strictMono.monotone (by omega)
      have hvalue : Format.single.value 1 = 2 ^ (-149 : ℤ) := by
        have hunits : Format.single.units 1 = 1 := by decide
        have hplace : Format.single.lastPlace 1 = -149 := by decide
        rw [Format.value, hunits, hplace, Nat.cast_one, one_mul]
      rw [hvalue] at hone
      refine lt_of_lt_of_le ?_ hone
      norm_num
    have hlt := hleast.trans hhigh
    have := (zpow_lt_zpow_iff_right₀ (by norm_num : (1 : ℚ) < 10)).mp hlt
    omega
  · have hlargest : x.ratio.value < 10 ^ (39 : ℤ) := by
      refine x.value_lt.trans_le ?_
      calc (2 : ℚ) ^ (x.power + 24) ≤ 2 ^ (128 : ℤ) :=
            zpow_le_zpow_right₀ (by norm_num) (by omega)
        _ ≤ 10 ^ (39 : ℤ) := by norm_num
    have hlt := hlow.trans_lt hlargest
    have := (zpow_lt_zpow_iff_right₀ (by norm_num : (1 : ℚ) < 10)).mp hlt
    omega

/-- **Nine digits are always enough.** -/
theorem withDigits_nine :
    (Format.single.withDigits x.magnitude x.ratio 9).isSome = true := by
  obtain ⟨horder, horder'⟩ := order_range hx hzero
  obtain ⟨hlow, hhigh⟩ := Ratio.divPow_spec (ratio_num_pos hzero) x.ratio_den_pos (x.ratio.order - 9)
  have hdigits := Ratio.divPow_digits (ratio_num_pos hzero) x.ratio_den_pos 9
  obtain ⟨hfirst, -⟩ := Ratio.order_spec (ratio_num_pos hzero) x.ratio_den_pos
  have hgrid := grid_lt hzero
  have hpow : (0 : ℚ) < 10 ^ (x.ratio.order - 9) := by positivity
  rw [show ((9 : Nat) : ℤ) = 9 by rfl] at hdigits
  -- the digits below the number are nine, so their order is that of the number
  have hmany : 10 ^ 8 ≤ (x.ratio.divPow (x.ratio.order - 9)).1 := by
    have hscale : (10 : ℚ) ^ (x.ratio.order - 1) = 10 ^ 8 * 10 ^ (x.ratio.order - 9) := by
      rw [show x.ratio.order - 1 = ((8 : Nat) : ℤ) + (x.ratio.order - 9) by push_cast; ring,
        zpow_add₀ (by norm_num), zpow_natCast]
    have hlt : (10 ^ 8 : ℚ) < (x.ratio.divPow (x.ratio.order - 9)).1 + 1 := by
      refine lt_of_mul_lt_mul_right ?_ hpow.le
      rw [← hscale]
      exact hfirst.trans_lt hhigh
    have hlt' : 10 ^ 8 < (x.ratio.divPow (x.ratio.order - 9)).1 + 1 := by exact_mod_cast hlt
    omega
  have hbelow : Format.single.readsBack x.magnitude
      ⟨(x.ratio.divPow (x.ratio.order - 9)).1, x.ratio.order - 9⟩ = true := by
    generalize (x.ratio.divPow (x.ratio.order - 9)).1 = quotient at *
    have hlength : decimalLength quotient = 9 := by
      have hle := (decimalLength_le_iff (n := quotient) (by decide : 0 < 9)).mpr hdigits
      have hge : ¬ decimalLength quotient ≤ 8 := by
        rw [decimalLength_le_iff (by decide)]
        omega
      omega
    have hround : Format.single.round (Decimal.mk quotient (x.ratio.order - 9)).numerator
        (Decimal.mk quotient (x.ratio.order - 9)).denominator = x.magnitude := by
      rw [Format.round_eq_iff (by decide) (Decimal.denominator_pos _) (of_decide_eq_true hx),
        Decimal.ratio_eq_value]
      refine nearest_below hlow ?_
      show x.ratio.value - quotient * 10 ^ (x.ratio.order - 9) < _
      linarith
    have hrange : Nat.pow 2 Format.single.exponentBits = 256 := by decide
    unfold Format.readsBack Decimal.round Decimal.order
    rw [hround, hlength, hrange]
    rw [if_neg (by dsimp only; omega), if_neg (by dsimp only; omega), if_neg (by dsimp only; omega)]
    exact beq_self_eq_true _
  unfold Format.withDigits
  dsimp only [Nat.cast_ofNat]
  rw [hbelow]
  cases Format.single.readsBack x.magnitude
    ⟨(x.ratio.divPow (x.ratio.order - 9)).1 + 1, x.ratio.order - 9⟩ <;> rfl

/-- **The shortest numeral of a number has at most nine digits.** -/
theorem exists_withDigits :
    ∃ n, 1 ≤ n ∧ n ≤ 9 ∧ Format.single.withDigits x.magnitude x.ratio n = some x.shortest := by
  have hnine := withDigits_nine hx hzero
  have hfound : ((List.range Format.enoughDigits).findSome? fun n =>
      Format.single.withDigits x.magnitude x.ratio (n + 1)) ≠ none := by
    rw [ne_eq, List.findSome?_eq_none_iff]
    intro h
    rw [h 8 (by decide)] at hnine
    cases hnine
  obtain ⟨d, hd⟩ := Option.ne_none_iff_exists'.mp hfound
  have hshortest : x.shortest = d := by
    unfold shortest
    rw [hd]
    rfl
  obtain ⟨before, n, rest, hrange, hn, hnone⟩ := List.findSome?_eq_some_iff.mp hd
  -- none of the numbers before the first that works is nine
  have hlength : before.length = n := by
    have hget : (List.range Format.enoughDigits)[before.length]? = some n := by
      rw [hrange, List.getElem?_append_right (Nat.le_refl _), Nat.sub_self]
      rfl
    obtain ⟨_, hvalue⟩ := List.getElem?_eq_some_iff.mp hget
    rwa [List.getElem_range] at hvalue
  refine ⟨n + 1, by omega, ?_, by rw [hn, hshortest]⟩
  by_contra hmore
  have hmem : 8 ∈ before := by
    have hget : (List.range Format.enoughDigits)[8]? = some 8 := by decide
    rw [hrange, List.getElem?_append_left (by omega)] at hget
    exact List.mem_of_getElem? hget
  rw [hnone 8 hmem] at hnine
  cases hnine

end

end Binary

end Shading
