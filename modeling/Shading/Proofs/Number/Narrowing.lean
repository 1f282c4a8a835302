/-
  Shading.Proofs.Number.Narrowing — rounding twice.

  A numeral is rounded to 64 bits and then to 32.  The middles between two 32-bit numbers are 64-bit
  numbers themselves, so the first rounding never carries a numeral past one of them; but it may carry
  it onto one, and then the second rounding goes to the even neighbour, wherever the numeral was.
-/
import Shading.Proofs.Number.Numeral

namespace Shading

/-! ## §1. Formats inside of one another -/

variable {q : ℚ} {m : Nat}

namespace Format

variable {f g : Format}

/-- Every short significand is that of a number, in any binade. -/
theorem exists_value_eq (f : Format) {s : Nat} (hs : s < 2 * 2 ^ f.fractionBits) (k : Nat) :
    ∃ m, f.value m = s * 2 ^ (f.leastPower + k) := by
  -- a significand that is too short for its binade belongs to one below
  induction k generalizing s with
  | zero => exact ⟨_, value_add (Or.inl rfl) hs.le⟩
  | succ k ih =>
    rcases Nat.lt_or_ge s (2 ^ f.fractionBits) with hlt | hge
    · obtain ⟨m, hm⟩ := ih (s := 2 * s) (by omega)
      refine ⟨m, hm.trans ?_⟩
      rw [Nat.cast_add k 1, Nat.cast_one, ← add_assoc, zpow_add_one₀ (by norm_num)]
      push_cast
      ring
    · exact ⟨_, value_add (Or.inr hge) hs.le⟩

/-- The format has the middles of the other one among its values. -/
structure Refines (g f : Format) : Prop where
  places : f.fractionBits + 1 ≤ g.fractionBits
  least : g.leastPower + 1 ≤ f.leastPower

theorem double_refines_single : Refines .double .single := ⟨by decide, by decide⟩

/-- A middle of the coarse format is a value of the fine one. -/
theorem Refines.exists_value_eq_middle (h : g.Refines f) (m : Nat) :
    ∃ u, g.value u = f.middle m := by
  have hshort : 2 * f.units m + 1 < 2 * 2 ^ g.fractionBits := by
    have hunits := f.units_lt m
    have hpow : 2 ^ (f.fractionBits + 1) ≤ 2 ^ g.fractionBits :=
      Nat.pow_le_pow_right (by decide) h.places
    rw [Nat.pow_succ] at hpow
    omega
  obtain ⟨u, hu⟩ := g.exists_value_eq hshort (f.lastPlace m - 1 - g.leastPower).toNat
  refine ⟨u, hu.trans ?_⟩
  have hleast := h.least
  have hplace : g.leastPower + ((f.lastPlace m - 1 - g.leastPower).toNat : ℤ)
      = f.lastPlace m - 1 := by
    unfold lastPlace
    omega
  rw [hplace, f.middle_eq, value, zpow_sub_one₀ (by norm_num)]
  push_cast
  ring

/-- **Rounding twice goes wrong only over a middle and only for odd magnitudes.** -/
theorem nearest_twice (h : g.Refines f) {n : Nat} (hm : f.Nearest q m) (hn : g.Nearest q n) :
    f.Nearest (g.value n) m
      ∨ m % 2 = 1 ∧ ∃ j, (m = j ∨ m = j + 1) ∧ g.value n = f.middle j := by
  -- the first rounding keeps to the side of every middle
  have habove : g.value n ≤ f.middle m := by
    obtain ⟨u, hu⟩ := h.exists_value_eq_middle m
    have hle := hn.le_of_le (g.nearest_value u) (by rw [hu]; exact hm.le_middle)
    rw [← hu]
    exact g.value_strictMono.monotone hle
  have hbelow : ∀ k, m = k + 1 → f.middle k ≤ g.value n := by
    intro k hk
    obtain ⟨u, hu⟩ := h.exists_value_eq_middle k
    have hle := (g.nearest_value u).le_of_le hn (by rw [hu]; exact hm.middle_le k hk)
    rw [← hu]
    exact g.value_strictMono.monotone hle
  rcases Nat.mod_two_eq_zero_or_one m with heven | hodd
  · exact Or.inl ⟨habove, fun _ => heven, hbelow, fun _ _ _ => heven⟩
  · by_cases hat : ∃ j, (m = j ∨ m = j + 1) ∧ g.value n = f.middle j
    · exact Or.inr ⟨hodd, hat⟩
    · left
      refine nearest_of_lt (lt_of_le_of_ne habove fun heq => hat ⟨m, Or.inl rfl, heq⟩) ?_
      intro k hk
      exact lt_of_le_of_ne (hbelow k hk) fun heq => hat ⟨k, Or.inr hk, heq.symm⟩

/-- A number is at most half a last place away from what is rounded to it. -/
theorem Nearest.abs_sub_le (h : f.Nearest q m) (hq : 0 ≤ q) :
    |q - f.value m| ≤ 2 ^ f.lastPlace m / 2 := by
  have hup := h.le_middle
  rw [f.middle_eq] at hup
  rw [abs_le]
  refine ⟨?_, by linarith⟩
  cases m with
  | zero =>
    have hpos : (0 : ℚ) < 2 ^ f.lastPlace 0 := by positivity
    rw [f.value_zero]
    linarith
  | succ k =>
    have hdown := h.middle_le k rfl
    have hpow : (2 : ℚ) ^ f.lastPlace k ≤ 2 ^ f.lastPlace (k + 1) :=
      zpow_le_zpow_right₀ (by norm_num) (f.lastPlace_mono (Nat.le_succ k))
    rw [f.middle_eq] at hdown
    rw [f.value_succ] at *
    linarith

/-- A small value has a small last place. -/
theorem lastPlace_le {e : ℤ} (hvalue : f.value m < 2 ^ e) (he : f.leastPower + f.fractionBits < e) :
    f.lastPlace m ≤ e - 1 - f.fractionBits := by
  rcases f.le_units m with hbinade | hunits
  · unfold lastPlace
    rw [hbinade]
    omega
  · have hle : (2 : ℚ) ^ (f.fractionBits + f.lastPlace m) ≤ f.value m := by
      rw [zpow_add₀ (by norm_num), zpow_natCast, value]
      refine mul_le_mul_of_nonneg_right ?_ (by positivity)
      exact_mod_cast hunits
    have hlt := (zpow_lt_zpow_iff_right₀ (by norm_num : (1 : ℚ) < 2)).mp (hle.trans_lt hvalue)
    omega

end Format

/-! ## §2. From 64 bits to 32 -/

/-- The numeral is rounded to the magnitude, but not by way of 64 bits. -/
structure Slips (q : ℚ) (m : Nat) : Prop where
  nearest : Format.single.Nearest q m
  twice : ∀ n, Format.double.Nearest q n → ¬ Format.single.Nearest (Format.double.value n) m

/-- **A numeral that slips is very near to a middle.**  With `s · 2 ^ p` as the number, which has an
    odd significand, the middle is `(2 s ± 1) · 2 ^ (p - 1)`. -/
theorem Slips.near {n : Nat} (h : Slips q m) (hq : 0 ≤ q) (hn : Format.double.Nearest q n) :
    Format.single.units m % 2 = 1
      ∧ ∃ c : ℤ, (c = 2 * Format.single.units m + 1 ∨ c = 2 * Format.single.units m - 1)
        ∧ q ≠ c * 2 ^ (Format.single.lastPlace m - 1)
        ∧ |q - c * 2 ^ (Format.single.lastPlace m - 1)|
          ≤ 2 ^ (Format.single.lastPlace m - 30) := by
  generalize hp : Format.single.lastPlace m = p
  generalize hs : Format.single.units m = s
  obtain hgood | ⟨hodd, j, hj, hmiddle⟩ :=
    Format.nearest_twice Format.double_refines_single h.nearest hn
  · exact absurd hgood (h.twice n hn)
  have hunits := Format.single.eq_add_units m
  have hshort := Format.single.units_lt m
  have hbits : 2 ^ Format.single.fractionBits = 8388608 := by decide
  rw [hbits] at hunits hshort
  rw [hs] at hunits hshort
  -- an odd magnitude and its predecessor have the same last place
  have hsame : m = j + 1 → Format.single.lastPlace j = p := by
    intro hm
    have hdiv : j / 8388608 = m / 8388608 := by omega
    rw [← hp]
    unfold Format.lastPlace Format.binade
    rw [hbits, hdiv]
  have hvalue : Format.single.value m = s * 2 ^ p := by
    rw [Format.value, hs, hp]
  have hhalf : (2 : ℚ) ^ p = 2 * 2 ^ (p - 1) := by
    rw [zpow_sub_one₀ (by norm_num)]
    ring
  obtain ⟨c, hc, hcmiddle⟩ : ∃ c : ℤ, (c = 2 * s + 1 ∨ c = 2 * s - 1)
      ∧ Format.single.middle j = c * 2 ^ (p - 1) := by
    rcases hj with rfl | hj
    · refine ⟨2 * s + 1, Or.inl rfl, ?_⟩
      rw [Format.middle_eq, hvalue, hp, hhalf]
      push_cast
      ring
    · refine ⟨2 * s - 1, Or.inr rfl, ?_⟩
      have hnext := Format.single.value_succ j
      rw [← hj, hvalue, hsame hj, hhalf] at hnext
      rw [Format.middle_eq, hsame hj, hhalf]
      push_cast
      linarith
  refine ⟨by omega, c, hc, ?_, ?_⟩
  · -- an odd magnitude is not nearest to a middle
    intro heq
    rw [← hcmiddle] at heq
    rcases hj with rfl | hj
    · have := h.nearest.even_of_eq heq
      omega
    · have := h.nearest.even_of_eq' j hj heq
      omega
  · have hplace : Format.double.lastPlace n ≤ p - 29 := by
      have hlt : Format.double.value n < 2 ^ (p + 24) := by
        have hcle : (c : ℚ) < 2 ^ 25 := by
          have : c < 2 ^ 25 := by omega
          exact_mod_cast this
        have hpos : (0 : ℚ) < 2 ^ (p - 1) := by positivity
        calc Format.double.value n = c * 2 ^ (p - 1) := by rw [hmiddle, hcmiddle]
          _ < 2 ^ 25 * 2 ^ (p - 1) := mul_lt_mul_of_pos_right hcle hpos
          _ = 2 ^ (p + 24) := by
            rw [← zpow_natCast, ← zpow_add₀ (by norm_num)]
            congr 1
            push_cast
            ring
      have hleast : Format.single.leastPower ≤ p := by
        rw [← hp]
        unfold Format.lastPlace
        omega
      have hsingle : Format.single.leastPower = -149 := by decide
      have hdouble : Format.double.leastPower = -1074 := by decide
      have hlong : Format.double.fractionBits = 52 := rfl
      have := Format.lastPlace_le hlt (by omega)
      omega
    have hclose := hn.abs_sub_le hq
    rw [hmiddle, hcmiddle] at hclose
    have hpow : (2 : ℚ) ^ Format.double.lastPlace n ≤ 2 ^ (p - 29) :=
      zpow_le_zpow_right₀ (by norm_num) hplace
    have htwice : (2 : ℚ) ^ (p - 29) = 2 * 2 ^ (p - 30) := by
      rw [show p - 29 = p - 30 + 1 by ring, zpow_add_one₀ (by norm_num)]
      ring
    linarith

end Shading
