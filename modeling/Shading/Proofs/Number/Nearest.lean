/-
  Shading.Proofs.Number.Nearest — rounding gives the nearest number.

  Every magnitude of a format has a value, and so has every natural past infinity, as if the format
  went on for ever.  Between two neighbours lies their middle.  `Format.round` works on a numerator and
  a denominator; `round_nearest` says what it returns for the ratio.  So equal ratios are rounded alike,
  and the exact value of a finite number is rounded to the number.
-/
import Mathlib
import Shading.Number.Shortest

namespace Shading

theorem zpow_eq_div {a : ℚ} (ha : a ≠ 0) (z : ℤ) : a ^ z = a ^ z.toNat / a ^ (-z).toNat := by
  have hz : z = (z.toNat : ℤ) - ((-z).toNat : ℤ) := by omega
  conv_lhs => rw [hz, zpow_sub₀ ha, zpow_natCast, zpow_natCast]

variable {k r m n : Nat} {q : ℚ}

namespace Format

variable {f : Format}

/-! ## §1. Values and middles -/

/-- How many binades of normal numbers lie below that of the magnitude. -/
def binade (f : Format) (m : Nat) : Nat := m / 2 ^ f.fractionBits - 1

/-- The power of two of the magnitude's last place. -/
def lastPlace (f : Format) (m : Nat) : Int := f.leastPower + f.binade m

/-- How often the last place counts. -/
def units (f : Format) (m : Nat) : Nat := m - f.binade m * 2 ^ f.fractionBits

/-- The value of a magnitude, and of every natural past infinity. -/
def value (f : Format) (m : Nat) : ℚ := f.units m * 2 ^ f.lastPlace m

/-- The point halfway to the next value. -/
def middle (f : Format) (m : Nat) : ℚ := (f.value m + f.value (m + 1)) / 2

/-- A magnitude counts whole binades and units of the last one. -/
theorem eq_add_units (f : Format) (m : Nat) :
    m = f.binade m * 2 ^ f.fractionBits + f.units m := by
  have hle : f.binade m * 2 ^ f.fractionBits ≤ m := by
    have hdiv := Nat.div_mul_le_self m (2 ^ f.fractionBits)
    exact Nat.le_trans (Nat.mul_le_mul_right _ (Nat.sub_le _ _)) hdiv
  unfold units
  omega

theorem units_lt (f : Format) (m : Nat) : f.units m < 2 * 2 ^ f.fractionBits := by
  have hsplit := Nat.div_add_mod m (2 ^ f.fractionBits)
  have hrest := Nat.mod_lt m (Nat.two_pow_pos f.fractionBits)
  have hle : m / 2 ^ f.fractionBits ≤ f.binade m + 1 := by
    unfold binade
    omega
  have hmul := Nat.mul_le_mul_right (2 ^ f.fractionBits) hle
  rw [Nat.add_mul, Nat.one_mul] at hmul
  rw [Nat.mul_comm] at hsplit
  unfold units
  omega

/-- The units of all but the first binade have their leading one. -/
theorem le_units (f : Format) (m : Nat) : f.binade m = 0 ∨ 2 ^ f.fractionBits ≤ f.units m := by
  by_cases hlow : m < 2 ^ f.fractionBits
  · left
    unfold binade
    rw [Nat.div_eq_of_lt hlow]
  · right
    have hpos : 1 ≤ m / 2 ^ f.fractionBits :=
      (Nat.one_le_div_iff (Nat.two_pow_pos _)).mpr (by omega)
    have hdiv := Nat.div_mul_le_self m (2 ^ f.fractionBits)
    have hsucc : f.binade m + 1 = m / 2 ^ f.fractionBits := by
      unfold binade
      omega
    rw [← hsucc, Nat.add_mul, Nat.one_mul] at hdiv
    unfold units
    omega

theorem binade_add (hlow : k = 0 ∨ 2 ^ f.fractionBits ≤ r) (hhigh : r < 2 * 2 ^ f.fractionBits) :
    f.binade (k * 2 ^ f.fractionBits + r) = k
      ∧ f.units (k * 2 ^ f.fractionBits + r) = r := by
  have hbinade : f.binade (k * 2 ^ f.fractionBits + r) = k := by
    unfold binade
    rw [Nat.mul_comm, Nat.mul_add_div (Nat.two_pow_pos _)]
    by_cases hr : r < 2 ^ f.fractionBits
    · rw [Nat.div_eq_of_lt hr]
      omega
    · have hone : r / 2 ^ f.fractionBits = 1 := by
        rw [Nat.div_eq_iff (Nat.two_pow_pos _)]
        omega
      omega
  refine ⟨hbinade, ?_⟩
  unfold units
  rw [hbinade]
  omega

/-- The value of a magnitude, from any binade whose units reach that far. -/
theorem value_add (hlow : k = 0 ∨ 2 ^ f.fractionBits ≤ r) (hhigh : r ≤ 2 * 2 ^ f.fractionBits) :
    f.value (k * 2 ^ f.fractionBits + r) = r * 2 ^ (f.leastPower + k) := by
  rcases Nat.lt_or_ge r (2 * 2 ^ f.fractionBits) with hlt | hge
  · obtain ⟨hbinade, hunits⟩ := binade_add hlow hlt
    rw [value, lastPlace, hbinade, hunits]
  · -- the first magnitude of the next binade, whose units are twice as large
    have hr : r = 2 ^ f.fractionBits + 2 ^ f.fractionBits := by omega
    have hnext : k * 2 ^ f.fractionBits + r = (k + 1) * 2 ^ f.fractionBits + 2 ^ f.fractionBits := by
      rw [hr, Nat.add_mul, Nat.one_mul, Nat.add_assoc]
    obtain ⟨hbinade, hunits⟩ := binade_add (f := f) (k := k + 1) (r := 2 ^ f.fractionBits)
      (Or.inr (Nat.le_refl _)) (by have := Nat.two_pow_pos f.fractionBits; omega)
    rw [hnext, value, lastPlace, hbinade, hunits, hr, Nat.cast_add k 1, ← add_assoc, Nat.cast_one,
      zpow_add_one₀ (by norm_num)]
    push_cast
    ring

/-- From one magnitude to the next it is one unit in the last place. -/
theorem value_succ (f : Format) (m : Nat) : f.value (m + 1) = f.value m + 2 ^ f.lastPlace m := by
  have hm := f.eq_add_units m
  have hlow := f.le_units m
  have hhigh := f.units_lt m
  have hnext := value_add (f := f) (k := f.binade m) (r := f.units m + 1) (by omega) (by omega)
  rw [← Nat.add_assoc, ← hm] at hnext
  rw [hnext, value, lastPlace]
  push_cast
  ring

/-- Larger magnitudes have larger values. -/
theorem value_strictMono (f : Format) : StrictMono f.value :=
  strictMono_nat_of_lt_succ fun m => by
    have hpos : (0 : ℚ) < 2 ^ f.lastPlace m := by positivity
    rw [f.value_succ]
    linarith

theorem value_zero (f : Format) : f.value 0 = 0 := by
  have hunits : f.units 0 = 0 := by simp [units]
  rw [value, hunits, Nat.cast_zero, zero_mul]

theorem value_lt_middle (f : Format) (m : Nat) : f.value m < f.middle m := by
  have := f.value_strictMono (Nat.lt_succ_self m)
  unfold middle
  linarith

theorem middle_lt_value (f : Format) (m : Nat) : f.middle m < f.value (m + 1) := by
  have := f.value_strictMono (Nat.lt_succ_self m)
  unfold middle
  linarith

theorem middle_strictMono (f : Format) : StrictMono f.middle :=
  strictMono_nat_of_lt_succ fun m => (f.middle_lt_value m).trans (f.value_lt_middle (m + 1))

theorem middle_eq (f : Format) (m : Nat) : f.middle m = f.value m + 2 ^ f.lastPlace m / 2 := by
  rw [middle, f.value_succ]
  ring

theorem lastPlace_mono (f : Format) (h : m ≤ n) : f.lastPlace m ≤ f.lastPlace n := by
  have := Nat.sub_le_sub_right (Nat.div_le_div_right (c := 2 ^ f.fractionBits) h) 1
  unfold lastPlace binade
  omega

/-! ## §2. The nearest magnitude -/

/-- The ratio is between the middles around the magnitude.  It may be at one of them only if the
    magnitude is even. -/
structure Nearest (f : Format) (q : ℚ) (m : Nat) : Prop where
  le_middle : q ≤ f.middle m
  even_of_eq : q = f.middle m → m % 2 = 0
  middle_le : ∀ k, m = k + 1 → f.middle k ≤ q
  even_of_eq' : ∀ k, m = k + 1 → q = f.middle k → m % 2 = 0

/-- **Larger ratios have larger nearest magnitudes.** -/
theorem Nearest.le_of_le {r : ℚ} (h : f.Nearest q m) (h' : f.Nearest r n) (hqr : q ≤ r) :
    m ≤ n := by
  by_contra hlt
  obtain ⟨k, rfl⟩ : ∃ k, m = k + 1 := ⟨m - 1, by omega⟩
  have hmiddle : f.middle n ≤ f.middle k := f.middle_strictMono.monotone (by omega)
  have hr := h'.le_middle
  have hq := h.middle_le k rfl
  -- both are at the one middle between them, but only one of two neighbours is even
  have hk : f.middle n = f.middle k := by linarith
  have hn := h'.even_of_eq (by linarith)
  have hm := h.even_of_eq' k rfl (by linarith)
  have := f.middle_strictMono.injective hk
  omega

/-- No two magnitudes are nearest to one value. -/
theorem Nearest.unique (h : f.Nearest q m) (h' : f.Nearest q n) : m = n :=
  Nat.le_antisymm (h.le_of_le h' (le_refl q)) (h'.le_of_le h (le_refl q))

/-- **The value of a magnitude is nearest to it.** -/
theorem nearest_value (f : Format) (m : Nat) : f.Nearest (f.value m) m where
  le_middle := (f.value_lt_middle m).le
  even_of_eq := fun h => absurd h (f.value_lt_middle m).ne
  middle_le := fun k hk => by
    subst hk
    exact (f.middle_lt_value k).le
  even_of_eq' := fun k hk h => by
    subst hk
    exact absurd h (f.middle_lt_value k).ne'

theorem nearest_of_lt (habove : q < f.middle m) (hbelow : ∀ k, m = k + 1 → f.middle k < q) :
    f.Nearest q m where
  le_middle := habove.le
  even_of_eq := fun h => absurd h habove.ne
  middle_le := fun k hk => (hbelow k hk).le
  even_of_eq' := fun k hk h => absurd h (hbelow k hk).ne'

/-! ## §3. Rounding -/

end Format

variable {d : Nat}

/-- The natural is nearest to the ratio; of two equally near ones it is the even one. -/
structure Rounds (t : ℚ) (r : Nat) : Prop where
  le : t ≤ r + 1 / 2
  even_of_eq : t = r + 1 / 2 → r % 2 = 0
  ge : r - 1 / 2 ≤ t
  even_of_eq' : t = r - 1 / 2 → r % 2 = 0

/-- Division rounds to the nearest whole number, and to the even one of two. -/
theorem roundDiv_rounds (hd : 0 < d) : Rounds (n / d) (roundDiv n d) := by
  have hd' : (0 : ℚ) < d := by exact_mod_cast hd
  have hsplit : (n / d : ℚ) = (n / d : Nat) + (n % d : Nat) / d := by
    rw [div_eq_iff hd'.ne', add_mul, div_mul_cancel₀ _ hd'.ne']
    exact_mod_cast (Nat.div_add_mod' n d).symm
  have hrest : ((n % d : Nat) : ℚ) / d < 1 := by
    rw [div_lt_one hd']
    exact_mod_cast Nat.mod_lt n hd
  have hnonneg : (0 : ℚ) ≤ (n % d : Nat) / d := by positivity
  have hhalf : ∀ b : Nat, (b / d : ℚ) < 1 / 2 ↔ 2 * b < d := fun b => by
    rw [div_lt_div_iff₀ hd' two_pos, one_mul, mul_comm]
    norm_cast
  have hhalf' : ∀ b : Nat, (1 / 2 : ℚ) < b / d ↔ d < 2 * b := fun b => by
    rw [div_lt_div_iff₀ two_pos hd', one_mul, mul_comm (b : ℚ)]
    norm_cast
  rw [hsplit]
  unfold roundDiv
  dsimp only
  simp only [← hhalf, ← hhalf']
  generalize (n / d : Nat) = a at *
  generalize ((n % d : Nat) / d : ℚ) = t at *
  split
  next hlow => exact ⟨by linarith, fun h => by linarith, by linarith, fun h => by linarith⟩
  next hlow =>
    split
    next hhigh =>
      refine ⟨?_, fun h => ?_, ?_, fun h => ?_⟩ <;> push_cast at * <;> linarith
    next hhigh =>
      -- at the half itself the even one of the two is taken
      obtain rfl : t = 1 / 2 := by linarith
      have heven : (a + a % 2) % 2 = 0 := by omega
      refine ⟨?_, fun _ => heven, ?_, fun _ => heven⟩ <;>
        rcases Nat.mod_two_eq_zero_or_one a with h | h <;> rw [h] <;> push_cast <;> linarith

/-- The comparison with a power of two is exact. -/
theorem powLeRatio_iff (hd : 0 < d) (k : Int) : powLeRatio k n d = true ↔ (2 : ℚ) ^ k ≤ n / d := by
  have hd' : (0 : ℚ) < d := by exact_mod_cast hd
  rw [zpow_eq_div two_ne_zero, div_le_div_iff₀ (by positivity) hd', powLeRatio, decide_eq_true_eq,
    mul_comm]
  norm_cast

/-- **The logarithm is that of the leading place.** -/
theorem floorLog_spec (hn : 0 < n) (hd : 0 < d) :
    (2 : ℚ) ^ floorLog n d ≤ n / d ∧ (n / d : ℚ) < 2 ^ (floorLog n d + 1) := by
  have hd' : (0 : ℚ) < d := by exact_mod_cast hd
  have hlow : ∀ x : Nat, 0 < x → (2 : ℚ) ^ (x.log2 : ℤ) ≤ x := fun x hx => by
    exact_mod_cast Nat.log2_self_le hx.ne'
  have hhigh : ∀ x : Nat, (x : ℚ) < 2 ^ (x.log2 + 1 : ℤ) := fun x => by
    exact_mod_cast Nat.lt_log2_self (n := x)
  have hbelow : (2 : ℚ) ^ ((n.log2 : ℤ) - d.log2 - 1) ≤ n / d := by
    rw [sub_sub, zpow_sub₀ two_ne_zero]
    exact div_le_div₀ (by positivity) (hlow n hn) hd' (hhigh d).le
  have habove : (n / d : ℚ) < 2 ^ ((n.log2 : ℤ) - d.log2 + 1) := by
    rw [sub_add_eq_add_sub, zpow_sub₀ two_ne_zero]
    exact div_lt_div₀ (hhigh n) (hlow d hd) (by positivity) (by positivity)
  unfold floorLog
  dsimp only
  split
  next h => exact ⟨(powLeRatio_iff hd _).mp h, habove⟩
  next h =>
    rw [powLeRatio_iff hd, not_le] at h
    rw [sub_add_cancel]
    exact ⟨hbelow, h⟩

namespace Format

variable {f : Format}

/-- Rounding the units of a binade rounds the value: the neighbours below and above are the middles
    of the format, also where the binade begins or ends. -/
theorem nearest_units (hf : 0 < f.fractionBits) {t : ℚ} (ht : Rounds t r)
    (hlow : k = 0 ∨ (2 ^ f.fractionBits ≤ r ∧ 2 ^ f.fractionBits ≤ t))
    (hhigh : r ≤ 2 * 2 ^ f.fractionBits) :
    f.Nearest (t * 2 ^ (f.leastPower + k)) (k * 2 ^ f.fractionBits + r) := by
  have hunit : (0 : ℚ) < 2 ^ (f.leastPower + (k : ℤ)) := by positivity
  generalize hu : (2 : ℚ) ^ (f.leastPower + (k : ℤ)) = u at hunit
  have hvalue := value_add (f := f) (hlow.imp_right And.left) hhigh
  rw [hu] at hvalue
  have hparity : (k * 2 ^ f.fractionBits + r) % 2 = r % 2 := by
    obtain ⟨e, he⟩ : ∃ e, f.fractionBits = e + 1 := ⟨f.fractionBits - 1, by omega⟩
    rw [he, Nat.pow_succ, ← Nat.mul_assoc]
    omega
  have habove : (r + 1 / 2) * u ≤ f.middle (k * 2 ^ f.fractionBits + r) := by
    have hplace : f.leastPower + k ≤ f.lastPlace (k * 2 ^ f.fractionBits + r) := by
      have hbinade : k ≤ f.binade (k * 2 ^ f.fractionBits + r) := by
        rcases hlow with rfl | ⟨hr, -⟩
        · exact Nat.zero_le _
        · have hle : (k + 1) * 2 ^ f.fractionBits ≤ k * 2 ^ f.fractionBits + r := by
            rw [Nat.add_mul, Nat.one_mul]
            omega
          have := (Nat.le_div_iff_mul_le (Nat.two_pow_pos _)).mpr hle
          unfold binade
          omega
      unfold lastPlace
      omega
    have hpow : u ≤ 2 ^ f.lastPlace (k * 2 ^ f.fractionBits + r) := by
      rw [← hu]
      exact zpow_le_zpow_right₀ (by norm_num) hplace
    rw [f.middle_eq, hvalue]
    linarith
  have hbelow : ∀ j, k * 2 ^ f.fractionBits + r = j + 1 →
      f.middle j ≤ t * u ∧ (t * u = f.middle j → r % 2 = 0) := by
    intro j hj
    by_cases hfirst : k ≠ 0 ∧ r = 2 ^ f.fractionBits
    · -- the first of its binade: the ratio is not below its value
      have hr : (r : ℚ) ≤ t := by
        rw [hfirst.2]
        push_cast
        exact (hlow.resolve_left hfirst.1).2
      have hlt := f.middle_lt_value j
      rw [← hj, hvalue] at hlt
      have hle : r * u ≤ t * u := mul_le_mul_of_nonneg_right hr hunit.le
      exact ⟨by linarith, fun heq => by linarith⟩
    · have hrpos : 1 ≤ r := by
        rcases hlow with rfl | ⟨hr, -⟩
        · omega
        · have := Nat.two_pow_pos f.fractionBits
          omega
      have hprev := value_add (f := f) (k := k) (r := r - 1) (by omega) (by omega)
      have hj' : k * 2 ^ f.fractionBits + (r - 1) = j := by omega
      rw [hu, hj', Nat.cast_sub hrpos, Nat.cast_one] at hprev
      have hmiddle : f.middle j = (r - 1 / 2) * u := by
        rw [middle, ← hj, hvalue, hprev]
        ring
      rw [hmiddle]
      refine ⟨mul_le_mul_of_nonneg_right ht.ge hunit.le, fun heq => ht.even_of_eq' ?_⟩
      exact mul_right_cancel₀ hunit.ne' heq
  have hle : t * u ≤ (r + 1 / 2) * u := mul_le_mul_of_nonneg_right ht.le hunit.le
  refine ⟨hle.trans habove, fun heq => ?_, fun j hj => (hbelow j hj).1, fun j hj heq => ?_⟩
  · rw [hparity]
    refine ht.even_of_eq (mul_right_cancel₀ hunit.ne' ?_)
    linarith
  · rw [hparity]
    exact (hbelow j hj).2 heq

/-- **Rounding returns the nearest magnitude**, or infinity if that is smaller. -/
theorem round_nearest (hf : 0 < f.fractionBits) (hd : 0 < d) :
    ∃ m, f.Nearest ((n : ℚ) / d) m ∧ f.round n d = min m f.infinity := by
  rcases Nat.eq_zero_or_pos n with hzero | hn
  · subst hzero
    refine ⟨0, ?_, by simp [round]⟩
    rw [Nat.cast_zero, zero_div, ← f.value_zero]
    exact f.nearest_value 0
  · unfold round
    rw [if_neg (by omega)]
    dsimp only
    generalize hplace : max f.leastPower (floorLog n d - f.fractionBits) = place
    -- in units of the last place the ratio is `a / b`
    generalize ha : n * Nat.pow 2 (-place).toNat = a
    generalize hb : d * Nat.pow 2 place.toNat = b
    have hbpos : 0 < b := by
      rw [← hb]
      exact Nat.mul_pos hd (Nat.two_pow_pos _)
    have hratio : (n : ℚ) / d = a / b * 2 ^ place := by
      rw [← ha, ← hb, zpow_eq_div (by norm_num), Nat.pow_eq, Nat.pow_eq]
      have hd' : (d : ℚ) ≠ 0 := by positivity
      push_cast
      field_simp
    have hpow : (0 : ℚ) < 2 ^ place := by positivity
    obtain ⟨hbelow, habove⟩ := floorLog_spec hn hd
    have hrounds := roundDiv_rounds (n := a) hbpos
    rw [hratio] at hbelow habove ⊢
    generalize (a / b : ℚ) = t at *
    generalize roundDiv a b = r at *
    have hhigh : t < 2 * 2 ^ f.fractionBits := by
      refine lt_of_mul_lt_mul_right (habove.trans_le ?_) hpow.le
      rw [← pow_succ', ← zpow_natCast, ← zpow_add₀ two_ne_zero]
      exact zpow_le_zpow_right₀ one_le_two (by push_cast; omega)
    have hlow : (place - f.leastPower).toNat = 0 ∨ 2 ^ f.fractionBits ≤ t := by
      rcases lt_or_ge f.leastPower place with hgt | hle
      · refine Or.inr (le_of_mul_le_mul_right (le_trans ?_ hbelow) hpow)
        rw [← zpow_natCast, ← zpow_add₀ two_ne_zero]
        exact zpow_le_zpow_right₀ one_le_two (by omega)
      · exact Or.inl (by omega)
    generalize hk : (place - f.leastPower).toNat = k at hlow
    refine ⟨k * 2 ^ f.fractionBits + r, ?_, by rw [Nat.pow_eq]⟩
    obtain rfl : place = f.leastPower + k := by omega
    refine nearest_units hf hrounds (hlow.imp_right fun h => ⟨?_, h⟩) ?_
    · have hlt : ((2 ^ f.fractionBits : Nat) : ℚ) < (r + 1 : Nat) := by
        have := hrounds.le
        push_cast
        linarith
      exact Nat.lt_succ_iff.mp (by exact_mod_cast hlt)
    · have hlt : (r : ℚ) < (2 * 2 ^ f.fractionBits + 1 : Nat) := by
        have := hrounds.ge
        push_cast
        linarith
      exact Nat.lt_succ_iff.mp (by exact_mod_cast hlt)

theorem round_le_infinity (f : Format) (n d : Nat) : f.round n d ≤ f.infinity := by
  unfold round
  dsimp only
  split
  next => exact Nat.zero_le _
  next => exact Nat.min_le_right _ _

/-- **Rounding to a finite magnitude means that it is the nearest one.** -/
theorem round_eq_iff (hf : 0 < f.fractionBits) (hd : 0 < d) (hm : m < f.infinity) :
    f.round n d = m ↔ f.Nearest ((n : ℚ) / d) m := by
  obtain ⟨m', hnearest, hround⟩ := round_nearest (n := n) hf hd
  rw [hround]
  constructor
  · intro h
    have : m' = m := by omega
    rwa [← this]
  · intro h
    have := h.unique hnearest
    omega

/-- **Equal ratios are rounded alike.** -/
theorem round_congr (hf : 0 < f.fractionBits) {n' d' : Nat} (hd : 0 < d) (hd' : 0 < d')
    (h : (n : ℚ) / d = n' / d') : f.round n d = f.round n' d' := by
  obtain ⟨m, hm, hround⟩ := round_nearest (n := n) hf hd
  obtain ⟨m', hm', hround'⟩ := round_nearest (n := n') hf hd'
  rw [← h] at hm'
  rw [hround, hround', hm.unique hm']

end Format

/-! ## §4. Values of numbers and numerals -/

namespace Binary

variable {f : Format}

theorem power_eq (x : Binary f) : x.power = f.lastPlace x.magnitude := rfl

theorem significand_eq (x : Binary f) : x.significand = f.units x.magnitude := by
  have hsplit := Nat.div_add_mod' x.magnitude (2 ^ f.fractionBits)
  unfold significand exponentField fractionField Format.units Format.binade
  simp only [Nat.pow_eq]
  generalize x.magnitude / 2 ^ f.fractionBits = e at *
  generalize x.magnitude % 2 ^ f.fractionBits = r at *
  cases e with
  | zero => simp_all
  | succ e =>
    rw [Nat.succ_mul] at hsplit
    rw [if_neg (Nat.succ_ne_zero e), Nat.add_sub_cancel]
    rw [← hsplit, Nat.add_assoc, Nat.add_sub_cancel_left]

theorem ratio_eq_value (x : Binary f) : (x.ratio.num : ℚ) / x.ratio.den = f.value x.magnitude := by
  show ((x.significand * 2 ^ x.power.toNat : Nat) : ℚ) / ((2 ^ (-x.power).toNat : Nat) : ℚ) = _
  rw [Format.value, ← x.significand_eq, ← x.power_eq, zpow_eq_div (by norm_num)]
  push_cast
  ring

end Binary

namespace Decimal

/-- The number that a numeral stands for. -/
def value (d : Decimal) : ℚ := d.digits * 10 ^ d.exponent

theorem denominator_pos (d : Decimal) : 0 < d.denominator := Nat.pow_pos (by decide)

theorem ratio_eq_value (d : Decimal) : (d.numerator : ℚ) / d.denominator = d.value := by
  show ((d.digits * 10 ^ d.exponent.toNat : Nat) : ℚ) / ((10 ^ (-d.exponent).toNat : Nat) : ℚ) = _
  rw [value, zpow_eq_div (by norm_num)]
  push_cast
  ring

end Decimal

end Shading
