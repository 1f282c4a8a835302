/-
  Shading.Proofs.Number.Survival — which 32-bit numbers survive their own text.

  A number is written with the fewest digits that tell it from the other 32-bit numbers, and read back
  by way of 64 bits.  It gets lost if its numeral slips onto a middle.  Nine digits never do: the grid
  is too fine.  For eight digits and less the numerals near a middle are the pairs of a strip, one for
  each last place and each order, and the strips are searched.
-/
import Shading.Proofs.Number.Approach
import Shading.Proofs.Number.Digits

namespace Shading

/-! ## §1. By way of 64 bits -/

theorem Binary.make_eq_iff {f : Format} {negative : Bool} {m n : Nat} (hm : m < f.magnitudes)
    (hn : n < f.magnitudes) : make f negative m = make f negative n ↔ m = n := by
  unfold make
  simp only [Binary.mk.injEq, true_and, Nat.mod_eq_of_lt hm, Nat.mod_eq_of_lt hn]

namespace Decimal

variable {d : Decimal} {m : Nat}

/-- What is finite in 32 bits is finite in 64. -/
theorem round_double_lt (h : d.round .single < Format.single.infinity) :
    d.round .double < Format.double.infinity := by
  have hin : d.InRange .single := (round_lt_infinity_iff Format.wide_single d).mp h
  have hwider : Format.single.overflow ≤ Format.double.overflow := by decide +kernel
  rw [round_lt_infinity_iff Format.wide_double]
  exact lt_of_lt_of_le hin (Nat.mul_le_mul_right _ hwider)

section

variable (hround : d.round .single = m) (hpos : 0 < m) (hfinite : m < Format.single.infinity)

include hround hpos hfinite

/-- A numeral that is rounded to a finite number has an order in reach. -/
theorem order_of_round :
    d.digits ≠ 0 ∧ -256 ≤ d.order ∧ d.order ≤ 256
      ∧ Format.single.round d.numerator d.denominator = m := by
  have hrange : Nat.pow 2 Format.single.exponentBits = 256 := by decide
  unfold round at hround
  rw [hrange] at hround
  split at hround
  next => omega
  next hdigits =>
    split at hround
    next => omega
    next habove =>
      split at hround
      next => omega
      next hbelow => exact ⟨hdigits, by omega, by omega, hround⟩

theorem nearest_single : Format.single.Nearest d.value m := by
  obtain ⟨-, -, -, hsame⟩ := order_of_round hround hpos hfinite
  rwa [Format.round_eq_iff (by decide) d.denominator_pos hfinite, d.ratio_eq_value] at hsame

theorem nearest_double : Format.double.Nearest d.value (d.round .double) := by
  obtain ⟨hdigits, hlow, hhigh, -⟩ := order_of_round hround hpos hfinite
  have hlt : d.round .double < Format.double.infinity := round_double_lt (by rwa [hround])
  have hrange : Nat.pow 2 Format.double.exponentBits = 2048 := by decide
  have hsame : d.round .double = Format.double.round d.numerator d.denominator := by
    unfold round
    rw [if_neg hdigits, hrange, if_neg (by omega), if_neg (by omega)]
  rw [hsame] at hlt ⊢
  rw [← d.ratio_eq_value]
  exact (Format.round_eq_iff (by decide) d.denominator_pos hlt).mp rfl

/-- **A numeral is read as the number that it is rounded to, unless it slips.** -/
theorem convert_toBinary_iff (negative : Bool) :
    (d.toBinary .double negative).convert .single = .make .single negative m
      ↔ ¬ Slips d.value m := by
  have hlt : d.round .double < Format.double.infinity := round_double_lt (by rwa [hround])
  have hdouble := nearest_double hround hpos hfinite
  have hsingle := nearest_single hround hpos hfinite
  have hbig : Format.double.infinity < Format.double.magnitudes := by decide
  have hbig' : Format.single.infinity < Format.single.magnitudes := by decide
  generalize hy : d.toBinary .double negative = y
  have hmagnitude : y.magnitude = d.round .double := by
    rw [← hy]
    exact Nat.mod_eq_of_lt (hlt.trans hbig)
  have hnegative : y.negative = negative := by
    rw [← hy]
    rfl
  have hy' : y.magnitude < Format.double.infinity := by rwa [hmagnitude]
  have hnumber : y.isNaN = false := decide_eq_false (Nat.not_lt_of_gt hy')
  have hin : y.isFinite = true := decide_eq_true hy'
  have hconvert : y.convert .single
      = .make .single negative (Format.single.round y.ratio.num y.ratio.den) := by
    unfold Binary.convert
    rw [hnumber, if_neg (by decide), if_pos hin, hnegative]
    rfl
  have hden : 0 < y.ratio.den := Nat.two_pow_pos _
  rw [hconvert, Binary.make_eq_iff ((Format.round_le_infinity ..).trans_lt hbig')
    (hfinite.trans hbig'), Format.round_eq_iff (by decide) hden hfinite, y.ratio_eq_value, hmagnitude]
  constructor
  · intro hback hslips
    exact hslips.twice _ hdouble hback
  · intro hkeeps
    by_contra hlost
    refine hkeeps ⟨hsingle, fun n hn => ?_⟩
    rwa [hn.unique hdouble]

end

end Decimal

/-! ## §2. The search -/

/-- The magnitude of the number that gets lost, `7.038531e-26`. -/
def frail : Nat := 0x15ae43fd

/-- Does the number come back when its shortest numeral is read? -/
def Binary.comesBack (x : Single) : Bool :=
  (x.shortest.toBinary .double x.negative).convert .single == x

/-- The numerals of order `o` with at most eight digits near to halves of the last place `p`. -/
def strip (p o : Int) : Strip where
  a := Nat.pow 10 (o - 8).toNat * Nat.pow 2 (1 - p).toNat
  b := Nat.pow 10 (8 - o).toNat * Nat.pow 2 (p - 1).toNat
  most := 100000000
  scale := 536870912

/-- Is the half `c` of the last place `p` a middle next to no odd significand, or does the number with
    that significand come back? -/
def harmless (p c : Int) : Bool :=
  c % 2 == 0
    ||
    let s := if c % 4 == 1 then (c + 1) / 2 else (c - 1) / 2
    let m := ((p + 149) * 8388608 + s).toNat
    m == frail || (Binary.make .single false m).comesBack

/-- Is `10 ^ k ≤ 2 ^ e`? -/
def tenLeTwo (k e : Int) : Bool :=
  Nat.pow 10 k.toNat * Nat.pow 2 (-e).toNat ≤ Nat.pow 2 e.toNat * Nat.pow 10 (-k).toNat

/-- Is `2 ^ e ≤ 10 ^ k`? -/
def twoLeTen (e k : Int) : Bool :=
  Nat.pow 2 e.toNat * Nat.pow 10 (-k).toNat ≤ Nat.pow 10 k.toNat * Nat.pow 2 (-e).toNat

/-- The least order of a number with the last place `p`.  The subnormal numbers begin below. -/
def lowOrder (p : Int) : Int := if p = -149 then -44 else (p + 23) * 30103 / 100000 + 1

/-- The largest order of a number with the last place `p`. -/
def highOrder (p : Int) : Int := (p + 24) * 30103 / 100000 + 1

/-- The orders are what they should be, and nothing gets lost but one number. -/
def settled (p : Int) : Bool :=
  (p == -149 || tenLeTwo (lowOrder p - 1) (p + 23)) && twoLeTen (p + 24) (highOrder p)
    && (List.range (highOrder p - lowOrder p + 1).toNat).all fun i =>
      (strip p (lowOrder p + i)).check fun _ c => harmless p c

/-- All strips were searched, one for each last place. -/
theorem all_settled : ((List.range 254).all fun i => settled (i - 149)) = true := by
  decide +kernel

theorem settled_of_range {p : Int} (hlow : -149 ≤ p) (hhigh : p ≤ 104) : settled p = true := by
  have hmem : (p + 149).toNat ∈ List.range 254 := List.mem_range.mpr (by omega)
  have hp := List.all_eq_true.mp all_settled _ hmem
  rwa [show (((p + 149).toNat : Nat) : Int) - 149 = p by omega] at hp

/-! ## §3. What the search means -/

theorem le_of_tenLeTwo {k e : Int} (h : tenLeTwo k e = true) : (10 : ℚ) ^ k ≤ 2 ^ e := by
  have hnat : 10 ^ k.toNat * 2 ^ (-e).toNat ≤ 2 ^ e.toNat * 10 ^ (-k).toNat := of_decide_eq_true h
  rw [zpow_eq_div (by norm_num) k, zpow_eq_div (by norm_num) e,
    div_le_div_iff₀ (by positivity) (by positivity)]
  exact_mod_cast hnat

theorem le_of_twoLeTen {k e : Int} (h : twoLeTen e k = true) : (2 : ℚ) ^ e ≤ 10 ^ k := by
  have hnat : 2 ^ e.toNat * 10 ^ (-k).toNat ≤ 10 ^ k.toNat * 2 ^ (-e).toNat := of_decide_eq_true h
  rw [zpow_eq_div (by norm_num) k, zpow_eq_div (by norm_num) e,
    div_le_div_iff₀ (by positivity) (by positivity)]
  exact_mod_cast hnat

/-- The gap of a pair is its distance from the line, scaled to whole numbers. -/
theorem strip_gap (p o d c : Int) :
    (((strip p o).gap d c : Int) : ℚ)
      = (d * 10 ^ (o - 8) - c * 2 ^ (p - 1)) * (10 ^ (8 - o).toNat * 2 ^ (1 - p).toNat) := by
  have hten : (10 : ℚ) ^ (o - 8) * 10 ^ (8 - o).toNat = 10 ^ (o - 8).toNat := by
    rw [zpow_eq_div (by norm_num), show -(o - 8) = 8 - o by ring, div_mul_cancel₀]
    positivity
  have htwo : (2 : ℚ) ^ (p - 1) * 2 ^ (1 - p).toNat = 2 ^ (p - 1).toNat := by
    rw [zpow_eq_div (by norm_num), show -(p - 1) = 1 - p by ring, div_mul_cancel₀]
    positivity
  unfold Strip.gap strip
  simp only [Nat.pow_eq]
  push_cast
  rw [← hten, ← htwo]
  ring

theorem strip_b (p o : Int) :
    (((strip p o).b : Nat) : ℚ) = 2 ^ (p - 1) * (10 ^ (8 - o).toNat * 2 ^ (1 - p).toNat) := by
  have htwo : (2 : ℚ) ^ (p - 1) * 2 ^ (1 - p).toNat = 2 ^ (p - 1).toNat := by
    rw [zpow_eq_div (by norm_num), show -(p - 1) = 1 - p by ring, div_mul_cancel₀]
    positivity
  unfold strip
  simp only [Nat.pow_eq]
  push_cast
  rw [← htwo]
  ring

/-- **What the search has found of one numeral.** -/
theorem harmless_of_near {p o d c : Int} (hp : settled p = true) (hlow : lowOrder p ≤ o)
    (hhigh : o ≤ highOrder p) (hpos : 0 < d) (hmost : d ≤ 100000000)
    (hne : (d * 10 ^ (o - 8) : ℚ) ≠ c * 2 ^ (p - 1))
    (hnear : |(d * 10 ^ (o - 8) : ℚ) - c * 2 ^ (p - 1)| ≤ 2 ^ (p - 30)) : harmless p c = true := by
  have hcheck : (strip p o).check (fun _ c => harmless p c) = true := by
    unfold settled at hp
    rw [Bool.and_eq_true, List.all_eq_true] at hp
    have hmem : (o - lowOrder p).toNat ∈ List.range (highOrder p - lowOrder p + 1).toNat :=
      List.mem_range.mpr (by omega)
    have ho := hp.2 _ hmem
    rwa [show lowOrder p + (((o - lowOrder p).toNat : Nat) : Int) = o by omega] at ho
  have hscaled : (0 : ℚ) < 10 ^ (8 - o).toNat * 2 ^ (1 - p).toNat := by positivity
  have hb : 0 < (strip p o).b :=
    Nat.mul_pos (Nat.pow_pos (by decide)) (Nat.two_pow_pos _)
  refine Strip.test_of_check hcheck (by decide : 0 < 536870912) hb ⟨hpos, hmost, ?_⟩ ?_
  · have hplace : (2 : ℚ) ^ (p - 1) = 536870912 * 2 ^ (p - 30) := by
      rw [show p - 1 = p - 30 + (29 : Nat) by push_cast; ring, zpow_add₀ (by norm_num), zpow_natCast]
      norm_num
      ring
    have hle : (536870912 : ℚ) * |(((strip p o).gap d c : Int) : ℚ)| ≤ (strip p o).b := by
      rw [strip_gap, strip_b, abs_mul, abs_of_pos hscaled, ← mul_assoc]
      refine mul_le_mul_of_nonneg_right ?_ hscaled.le
      linarith
    have hscale : ((strip p o).scale : Int) = 536870912 := rfl
    rw [hscale]
    exact_mod_cast hle
  · intro hzero
    have hzero' : (((strip p o).gap d c : Int) : ℚ) = 0 := by rw [hzero, Int.cast_zero]
    rw [strip_gap, mul_eq_zero, sub_eq_zero] at hzero'
    exact hzero'.elim hne hscaled.ne'

/-! ## §4. One number -/

namespace Binary

variable {x : Single}

theorem le_value (h : x.power ≠ -149) : (2 : ℚ) ^ (x.power + 23) ≤ x.ratio.value := by
  rcases Format.single.le_units x.magnitude with hbinade | hunits
  · refine absurd ?_ h
    rw [x.power_eq, Format.lastPlace, hbinade, Format.single_leastPower]
    rfl
  · have hunits' : (2 ^ 23 : ℚ) ≤ Format.single.units x.magnitude := by exact_mod_cast hunits
    rw [x.ratio_value, Format.value, ← x.power_eq,
      show x.power + 23 = ((23 : Nat) : ℤ) + x.power by push_cast; ring, zpow_add₀ (by norm_num),
      zpow_natCast]
    exact mul_le_mul_of_nonneg_right hunits' (by positivity)

/-- The orders that are searched are all that occur. -/
theorem order_lowHigh (hx : x.isFinite = true) (hzero : x.magnitude ≠ 0) :
    lowOrder x.power ≤ x.ratio.order ∧ x.ratio.order ≤ highOrder x.power := by
  obtain ⟨hplace, hplace'⟩ := power_range hx
  obtain ⟨hlow, hhigh⟩ := Ratio.order_spec (ratio_num_pos hzero) x.ratio_den_pos
  have hsettled := settled_of_range hplace hplace'
  unfold settled at hsettled
  rw [Bool.and_eq_true, Bool.and_eq_true, Bool.or_eq_true, beq_iff_eq] at hsettled
  obtain ⟨⟨hleast, hlargest⟩, -⟩ := hsettled
  constructor
  · by_cases hsubnormal : x.power = -149
    · rw [lowOrder, if_pos hsubnormal]
      exact (order_range hx hzero).1
    · have hlt : (10 : ℚ) ^ (lowOrder x.power - 1) < 10 ^ x.ratio.order :=
        ((le_of_tenLeTwo (hleast.resolve_left hsubnormal)).trans (le_value hsubnormal)).trans_lt hhigh
      have := (zpow_lt_zpow_iff_right₀ (by norm_num : (1 : ℚ) < 10)).mp hlt
      omega
  · have hlt : (10 : ℚ) ^ (x.ratio.order - 1) < 10 ^ highOrder x.power :=
      (hlow.trans_lt x.value_lt).trans_le (le_of_twoLeTen hlargest)
    have := (zpow_lt_zpow_iff_right₀ (by norm_num : (1 : ℚ) < 10)).mp hlt
    omega

/-- Nine digits keep clear of the middles. -/
theorem far_of_nine (hzero : x.magnitude ≠ 0) {q : ℚ} {c : ℤ}
    (hc : c = 2 * Format.single.units x.magnitude + 1 ∨ c = 2 * Format.single.units x.magnitude - 1)
    (hgrid : |q - x.ratio.value| ≤ 10 ^ (x.ratio.order - 9)) :
    2 ^ (x.power - 30) < |q - c * 2 ^ (x.power - 1)| := by
  have hpos : (0 : ℚ) < 2 ^ x.power := by positivity
  have hhalf : (2 : ℚ) ^ (x.power - 1) = 2 ^ x.power / 2 := by
    rw [zpow_sub_one₀ (by norm_num), div_eq_mul_inv]
  have hsmall : (2 : ℚ) ^ (x.power - 30) = 2 ^ x.power / 2 ^ 30 := by
    rw [show x.power - 30 = x.power - (30 : Nat) by push_cast; ring, zpow_sub₀ (by norm_num),
      zpow_natCast]
  have hmiddle : |c * 2 ^ (x.power - 1) - x.ratio.value| = 2 ^ x.power / 2 := by
    rw [x.ratio_value, Format.value, ← x.power_eq, hhalf, abs_eq (half_pos hpos).le]
    rcases hc with rfl | rfl
    · left
      push_cast
      ring
    · right
      push_cast
      ring
  have htriangle := abs_sub_le ((c : ℚ) * 2 ^ (x.power - 1)) q x.ratio.value
  rw [hmiddle, abs_sub_comm _ q] at htriangle
  have := grid_lt hzero
  rw [hsmall]
  linarith

/-- What a strip turns up is harmless or the one number that gets lost. -/
theorem eq_frail_or_comesBack {c : ℤ} (hodd : Format.single.units x.magnitude % 2 = 1)
    (hc : c = 2 * Format.single.units x.magnitude + 1 ∨ c = 2 * Format.single.units x.magnitude - 1)
    (h : harmless x.power c = true) :
    x.magnitude = frail ∨ (make .single false x.magnitude).comesBack = true := by
  have hmagnitude := Format.single.eq_add_units x.magnitude
  have hbits : 2 ^ Format.single.fractionBits = 8388608 := by decide
  have hpower : x.power = -149 + (Format.single.binade x.magnitude : Int) := by
    rw [x.power_eq, Format.lastPlace, Format.single_leastPower]
  rw [hbits] at hmagnitude
  generalize Format.single.units x.magnitude = s at *
  have hs : (if c % 4 == 1 then (c + 1) / 2 else (c - 1) / 2) = (s : Int) := by
    simp only [beq_iff_eq]
    split <;> omega
  have hm : ((x.power + 149) * 8388608 + s).toNat = x.magnitude := by omega
  unfold harmless at h
  dsimp only at h
  rw [hs, hm, Bool.or_eq_true, beq_iff_eq, Bool.or_eq_true, beq_iff_eq] at h
  exact h.resolve_left (by omega)

section

variable (hx : x.isFinite = true) (hzero : x.magnitude ≠ 0)

include hx hzero

theorem round_shortest_single : x.shortest.round .single = x.magnitude :=
  round_shortest Format.wide_single hx hzero

/-- A number comes back if its shortest numeral does not slip onto a middle. -/
theorem comesBack_iff : x.comesBack = true ↔ ¬ Slips x.shortest.value x.magnitude := by
  have hiff := Decimal.convert_toBinary_iff (round_shortest_single hx hzero)
    (Nat.pos_of_ne_zero hzero) (of_decide_eq_true hx) x.negative
  rw [make_magnitude] at hiff
  rw [← hiff, comesBack, beq_iff_eq]

/-- The sign makes no difference. -/
theorem comesBack_make (negative : Bool) :
    (make .single negative x.magnitude).comesBack = x.comesBack := by
  have hmagnitude : (make .single negative x.magnitude).magnitude = x.magnitude :=
    Nat.mod_eq_of_lt x.bound
  have hshortest : (make .single negative x.magnitude).shortest = x.shortest := by
    unfold shortest Format.allDigits ratio significand power exponentField fractionField
    rw [hmagnitude]
  have hfinite : (make .single negative x.magnitude).isFinite = true := by
    unfold isFinite
    rw [hmagnitude]
    exact hx
  rw [Bool.eq_iff_iff, comesBack_iff hfinite (by rwa [hmagnitude]), comesBack_iff hx hzero,
    hmagnitude, hshortest]

/-- **No number's shortest numeral slips but one's.** -/
theorem eq_frail_of_slips (h : Slips x.shortest.value x.magnitude) : x.magnitude = frail := by
  have hdouble := Decimal.nearest_double (round_shortest_single hx hzero)
    (Nat.pos_of_ne_zero hzero) (of_decide_eq_true hx)
  obtain ⟨n, -, hnine, hfound⟩ := exists_withDigits hx hzero
  obtain ⟨hexponent, hdigits, hgrid⟩ :=
    Format.withDigits_spec (ratio_num_pos hzero) x.ratio_den_pos hfound
  obtain ⟨hlow, hhigh⟩ := order_lowHigh hx hzero
  obtain ⟨hplace, hplace'⟩ := power_range hx
  have hq : 0 ≤ x.shortest.value := by
    unfold Decimal.value
    positivity
  obtain ⟨hodd, c, hc, hne, hnear⟩ := h.near hq hdouble
  rw [← x.power_eq] at hne hnear
  -- nine digits are nearer to the number than a middle can be
  have height : n ≤ 8 := by
    by_contra hmore
    obtain rfl : n = 9 := by omega
    exact absurd hnear (not_le_of_gt (far_of_nine hzero hc hgrid))
  -- eight digits, if need be with zeros at the end
  have hscale : x.shortest.value
      = ((x.shortest.digits * 10 ^ (8 - n) : Nat) : Int) * 10 ^ (x.ratio.order - 8) := by
    have hpow : (10 : ℚ) ^ (x.ratio.order - n) = 10 ^ (8 - n) * 10 ^ (x.ratio.order - 8) := by
      rw [show x.ratio.order - n = ((8 - n : Nat) : ℤ) + (x.ratio.order - 8) by omega,
        zpow_add₀ (by norm_num), zpow_natCast]
    rw [Decimal.value, hexponent, hpow]
    push_cast
    ring
  have hpos : 0 < x.shortest.digits := by
    obtain ⟨hdigits, -⟩ := Decimal.order_of_round (round_shortest_single hx hzero)
      (Nat.pos_of_ne_zero hzero) (of_decide_eq_true hx)
    omega
  have hmost : x.shortest.digits * 10 ^ (8 - n) ≤ 100000000 := by
    calc x.shortest.digits * 10 ^ (8 - n) ≤ 10 ^ n * 10 ^ (8 - n) := Nat.mul_le_mul_right _ hdigits
      _ = 100000000 := by rw [← Nat.pow_add, Nat.add_sub_cancel' height]
  rw [hscale] at hne hnear
  have hharmless := harmless_of_near (settled_of_range hplace hplace') hlow hhigh
    (by exact_mod_cast Nat.mul_pos hpos (Nat.pow_pos (by decide))) (by exact_mod_cast hmost) hne hnear
  rcases eq_frail_or_comesBack hodd hc hharmless with hfrail | hback
  · exact hfrail
  · rw [comesBack_make hx hzero, comesBack_iff hx hzero] at hback
    exact absurd h hback

end

/-- What becomes of the number when its text is read. -/
def afterText (x : Single) : Single :=
  if x.magnitude = frail then make .single x.negative (frail + 1) else x

theorem afterText_eq_self_iff : x.afterText = x ↔ x.magnitude ≠ frail := by
  unfold afterText
  split
  next hfrail =>
    constructor
    · intro h
      have hmagnitude : frail + 1 = x.magnitude := congrArg Binary.magnitude h
      rw [hfrail] at hmagnitude
      cases hmagnitude
    · intro hother
      exact absurd hfrail hother
  next hother => exact iff_of_true rfl hother

theorem isFinite_afterText (hx : x.isFinite = true) : x.afterText.isFinite = true := by
  unfold afterText
  split
  next => cases x.negative <;> decide
  next => exact hx

/-- **The shortest numeral of a number is read as the number, with one exception.** -/
theorem convert_shortest (hx : x.isFinite = true) (hzero : x.magnitude ≠ 0) :
    (x.shortest.toBinary .double x.negative).convert .single = x.afterText := by
  unfold afterText
  split
  next hfrail =>
    have hlost : ∀ negative, ((make .single negative frail).shortest.toBinary .double
        negative).convert .single = make .single negative (frail + 1) := by
      decide +kernel
    have hx' := hlost x.negative
    rwa [← hfrail, make_magnitude, hfrail] at hx'
  next hother =>
    have hback := (comesBack_iff hx hzero).mpr fun h => hother (eq_frail_of_slips hx hzero h)
    exact beq_iff_eq.mp hback

end Binary

end Shading
