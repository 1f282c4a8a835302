/-
  Shading.Proofs.Number.Range — which numerals are finite.

  Rounding sends a numeral to infinity from halfway past the largest finite number on.  With `p` places
  after the leading one and `2 ^ e` past every finite number, that number is
  `(2 ^ (p + 1) - 1) · 2 ^ (e - 1 - p)`, so the first value out of range is
  `(2 ^ (p + 2) - 1) · 2 ^ (e - 2 - p)`.
-/
import Shading.Proofs.Number.Nearest

namespace Shading

variable {n d : Nat}

/-! ## §1. Formats -/

namespace Format

/-- The exponent of the power of two just past every finite number. -/
def topPower (f : Format) : Nat := Nat.pow 2 (f.exponentBits - 1)

/-- The least value that is rounded to infinity: halfway between the largest finite number and the
    power of two above it. -/
def overflow (f : Format) : Nat :=
  (Nat.pow 2 (f.fractionBits + 2) - 1) * Nat.pow 2 (f.topPower - (f.fractionBits + 2))

/-- The formats with trailing places whose overflow value is a whole number. -/
structure Wide (f : Format) : Prop where
  fraction : 0 < f.fractionBits
  room : f.fractionBits + 2 ≤ f.topPower

theorem wide_single : Wide .single := ⟨by decide, by decide⟩

theorem wide_double : Wide .double := ⟨by decide, by decide⟩

variable {f : Format}

theorem leastPower_eq (f : Format) : f.leastPower = 2 - (f.topPower : Int) - f.fractionBits := rfl

/-- The exponents reach as far below one as above. -/
theorem Wide.exponent (hf : f.Wide) : 2 ^ f.exponentBits = 2 * f.topPower := by
  have hpos : f.exponentBits ≠ 0 := by
    intro hzero
    have hroom := hf.room
    rw [topPower, hzero] at hroom
    simp at hroom
  rw [topPower, Nat.pow_eq, ← Nat.pow_succ', Nat.succ_eq_add_one, Nat.sub_add_cancel (by omega)]

/-- The first magnitude past all finite ones is that of the binade after the last. -/
theorem Wide.infinity_eq (hf : f.Wide) :
    f.infinity = (2 * f.topPower - 3) * 2 ^ f.fractionBits + 2 * 2 ^ f.fractionBits := by
  have hroom := hf.room
  rw [infinity, Nat.pow_eq, Nat.pow_eq, hf.exponent, ← Nat.add_mul]
  congr 1
  omega

theorem Wide.infinity_pos (hf : f.Wide) : 0 < f.infinity := by
  have := Nat.two_pow_pos f.fractionBits
  rw [hf.infinity_eq]
  omega

/-- **The overflow value is the middle between the largest finite number and infinity.** -/
theorem Wide.overflow_eq (hf : f.Wide) : (f.overflow : ℚ) = f.middle (f.infinity - 1) := by
  have hroom := hf.room
  have hpos := Nat.two_pow_pos f.fractionBits
  have hplace : f.leastPower + (2 * f.topPower - 3 : Nat)
      = (f.topPower - (f.fractionBits + 2) + 1 : Nat) := by
    rw [leastPower_eq]
    omega
  have hlast := value_add (f := f) (k := 2 * f.topPower - 3) (r := 2 * 2 ^ f.fractionBits - 1)
    (Or.inr (by omega)) (by omega)
  have hnext := value_add (f := f) (k := 2 * f.topPower - 3) (Or.inr (by omega))
    (le_refl (2 * 2 ^ f.fractionBits))
  rw [hplace, zpow_natCast] at hlast hnext
  rw [middle, Nat.sub_add_cancel hf.infinity_pos, hf.infinity_eq, hnext,
    Nat.add_sub_assoc (by omega), hlast, overflow, Nat.cast_mul, Nat.pow_eq, Nat.pow_eq,
    Nat.cast_sub (Nat.one_le_two_pow), Nat.cast_sub (by omega)]
  push_cast
  ring

/-- The overflow value is at most the power of two past every finite number. -/
theorem overflow_le_two_pow (hf : f.Wide) : f.overflow ≤ 2 ^ f.topPower := by
  have hexp : f.topPower = f.fractionBits + 2 + (f.topPower - (f.fractionBits + 2)) := by
    have := hf.room
    omega
  conv => rhs; rw [hexp, Nat.pow_add]
  exact Nat.mul_le_mul_right _ (Nat.sub_le _ _)

theorem overflow_pos (f : Format) : 0 < f.overflow := by
  refine Nat.mul_pos (Nat.sub_pos_of_lt ?_) (Nat.two_pow_pos _)
  exact Nat.one_lt_two_pow (by omega)

/-- **A ratio is rounded to a finite number if it is below the overflow value.** -/
theorem round_lt_infinity_iff (hf : f.Wide) (hd : 0 < d) :
    f.round n d < f.infinity ↔ (n / d : ℚ) < f.overflow := by
  obtain ⟨m, hm, hround⟩ := round_nearest (n := n) hf.fraction hd
  have hpos := hf.infinity_pos
  have heven : f.infinity % 2 = 0 := by
    obtain ⟨e, he⟩ : ∃ e, f.fractionBits = e + 1 := ⟨f.fractionBits - 1, by have := hf.fraction; omega⟩
    rw [hf.infinity_eq, he, Nat.pow_succ, ← Nat.mul_assoc]
    omega
  rw [hround, hf.overflow_eq]
  constructor
  · intro hlt
    have hle : m ≤ f.infinity - 1 := by omega
    refine lt_of_le_of_ne (hm.le_middle.trans (f.middle_strictMono.monotone hle)) fun heq => ?_
    -- the number before infinity is odd, so the middle itself is rounded up
    obtain rfl : m = f.infinity - 1 :=
      le_antisymm hle (f.middle_strictMono.le_iff_le.mp (heq ▸ hm.le_middle))
    have := hm.even_of_eq heq
    omega
  · intro hlt
    by_contra hge
    obtain ⟨k, rfl⟩ : ∃ k, m = k + 1 := ⟨m - 1, by omega⟩
    have hmiddle := f.middle_strictMono.lt_iff_lt.mp ((hm.middle_le k rfl).trans_lt hlt)
    omega

end Format

/-! ## §2. Lengths and orders -/

theorem decimalLength_le_iff {n k : Nat} (hk : 0 < k) : decimalLength n ≤ k ↔ n < 10 ^ k :=
  Nat.length_toDigits_le_iff (by decide) hk

theorem decimalLength_pos (n : Nat) : 0 < decimalLength n := Nat.length_toDigits_pos

theorem lt_pow_decimalLength (n : Nat) : n < 10 ^ decimalLength n :=
  (decimalLength_le_iff (decimalLength_pos n)).mp (Nat.le_refl _)

theorem pow_decimalLength_le {n : Nat} (hn : 0 < n) : 10 ^ (decimalLength n - 1) ≤ n := by
  rcases Nat.eq_zero_or_pos (decimalLength n - 1) with hone | hmore
  · rw [hone]
    exact hn
  · rw [← Nat.not_lt, ← decimalLength_le_iff hmore]
    omega

namespace Decimal

variable {f : Format}

/-- **A numeral is below the power of ten of its order**, and not below the one before. -/
theorem value_lt_pow_order (d : Decimal) : d.value < 10 ^ d.order := by
  have hlt : (d.digits : ℚ) < 10 ^ decimalLength d.digits := by
    exact_mod_cast lt_pow_decimalLength d.digits
  rw [value, order, zpow_add₀ (by norm_num), zpow_natCast]
  exact mul_lt_mul_of_pos_right hlt (by positivity)

theorem pow_order_le_value {d : Decimal} (hd : d.digits ≠ 0) : (10 : ℚ) ^ (d.order - 1) ≤ d.value := by
  have hle : (10 : ℚ) ^ (decimalLength d.digits - 1) ≤ d.digits := by
    exact_mod_cast pow_decimalLength_le (Nat.pos_of_ne_zero hd)
  have horder : d.order - 1 = (decimalLength d.digits - 1 : Nat) + d.exponent := by
    have := decimalLength_pos d.digits
    unfold order
    omega
  rw [value, horder, zpow_add₀ (by norm_num), zpow_natCast]
  exact mul_le_mul_of_nonneg_right hle (by positivity)

/-! ## §3. Numerals -/

/-- Is the numeral below the overflow value of the format? -/
def InRange (f : Format) (d : Decimal) : Prop := d.numerator < f.overflow * d.denominator

/-- A numeral is in range if its value is below the overflow value. -/
theorem inRange_iff {d : Decimal} : d.InRange f ↔ d.value < f.overflow := by
  have hden : (0 : ℚ) < d.denominator := by exact_mod_cast d.denominator_pos
  rw [← d.ratio_eq_value, div_lt_iff₀ hden, InRange]
  norm_cast

/-- A numeral of too large an order is out of range. -/
theorem not_inRange_of_order (hf : f.Wide) {d : Decimal} (hd : d.digits ≠ 0)
    (horder : (f.topPower : Int) < d.order) : ¬ d.InRange f := by
  rw [inRange_iff, not_lt]
  calc (f.overflow : ℚ) ≤ 2 ^ f.topPower := by exact_mod_cast Format.overflow_le_two_pow hf
    _ ≤ 10 ^ f.topPower := pow_le_pow_left₀ (by norm_num) (by norm_num) _
    _ = 10 ^ (f.topPower : Int) := (zpow_natCast _ _).symm
    _ ≤ 10 ^ (d.order - 1) := zpow_le_zpow_right₀ (by norm_num) (by omega)
    _ ≤ d.value := pow_order_le_value hd

/-- A numeral below one is in range. -/
theorem inRange_of_order {d : Decimal} (horder : d.order < 0) : d.InRange f := by
  rw [inRange_iff]
  calc d.value < 10 ^ d.order := d.value_lt_pow_order
    _ ≤ 1 := zpow_le_one_of_nonpos₀ (by norm_num) horder.le
    _ ≤ f.overflow := by exact_mod_cast f.overflow_pos

theorem round_le_infinity (f : Format) (d : Decimal) : d.round f ≤ f.infinity := by
  unfold round
  split
  next => exact Nat.zero_le _
  next =>
    split
    next => exact Nat.le_refl _
    next =>
      split
      next => exact Nat.zero_le _
      next => exact f.round_le_infinity ..

theorem round_lt_infinity_iff (hf : f.Wide) (d : Decimal) :
    d.round f < f.infinity ↔ d.InRange f := by
  have htop : f.topPower ≤ Nat.pow 2 f.exponentBits :=
    Nat.pow_le_pow_right (by decide) (Nat.sub_le _ _)
  unfold round
  split
  next hzero =>
    refine iff_of_true hf.infinity_pos ?_
    unfold InRange numerator
    rw [hzero, Nat.zero_mul]
    exact Nat.mul_pos f.overflow_pos d.denominator_pos
  next hd =>
    split
    next horder =>
      exact iff_of_false (Nat.lt_irrefl _) (not_inRange_of_order hf hd (by omega))
    next =>
      split
      next horder => exact iff_of_true hf.infinity_pos (inRange_of_order (by omega))
      next =>
        rw [Format.round_lt_infinity_iff hf d.denominator_pos, d.ratio_eq_value, inRange_iff]

/-- **A numeral is finite if it is below the overflow value.** -/
theorem isFinite_toBinary_iff (hf : f.Wide) (d : Decimal) (negative : Bool) :
    (d.toBinary f negative).isFinite = true ↔ d.InRange f := by
  have hmagnitudes : f.infinity < f.magnitudes := by
    have hpow : f.magnitudes = Nat.pow 2 f.exponentBits * Nat.pow 2 f.fractionBits := Nat.pow_add ..
    rw [hpow]
    exact Nat.mul_lt_mul_of_pos_right (Nat.sub_lt (Nat.two_pow_pos _) Nat.one_pos)
      (Nat.two_pow_pos _)
  have hmod : d.round f % f.magnitudes = d.round f :=
    Nat.mod_eq_of_lt (Nat.lt_of_le_of_lt (round_le_infinity f d) hmagnitudes)
  unfold Binary.isFinite
  rw [decide_eq_true_eq]
  show d.round f % f.magnitudes < f.infinity ↔ _
  rw [hmod]
  exact round_lt_infinity_iff hf d

end Decimal

end Shading
