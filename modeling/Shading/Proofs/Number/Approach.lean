/-
  Shading.Proofs.Number.Approach — how near short numerals come to given binary fractions.

  With `d` for the digits of a numeral and `c` for the significand of a fraction, the question is how
  small `d · 10 ^ g - c · 2 ^ e` can be.  After scaling it is about `d · a - c · b` for two naturals
  `a` and `b`.  The pairs `(d, c)` are a lattice, and those with few digits and a small difference lie
  in a thin strip along one of its short vectors.
-/
import Mathlib

namespace Shading

/-- The pairs `(d, c)` for which `d · a` is near to `c · b`, with `d` from one to `most`. -/
structure Strip where
  a : Nat
  b : Nat
  most : Nat
  /-- How many times smaller than `b` the difference has to be. -/
  scale : Nat

namespace Strip

/-- The difference of a pair. -/
def gap (s : Strip) (d c : Int) : Int := d * s.a - c * s.b

/-- Is the pair in the strip? -/
def Near (s : Strip) (d c : Int) : Prop :=
  0 < d ∧ d ≤ s.most ∧ s.scale * |s.gap d c| ≤ s.b

instance (s : Strip) (d c : Int) : Decidable (s.Near d c) :=
  inferInstanceAs (Decidable (_ ∧ _ ∧ _))

/-- A grid that is too coarse for the strip has nothing near the line but on it. -/
theorem not_near_of_coarse {s : Strip} (h : s.b < s.scale * Nat.gcd s.a s.b) {d c : Int}
    (hgap : s.gap d c ≠ 0) : ¬ s.Near d c := by
  rintro ⟨-, -, hnear⟩
  have hdvd : ((Nat.gcd s.a s.b : Nat) : Int) ∣ s.gap d c :=
    Int.dvd_sub (Dvd.dvd.mul_left (Int.natCast_dvd_natCast.mpr (Nat.gcd_dvd_left _ _)) d)
      (Dvd.dvd.mul_left (Int.natCast_dvd_natCast.mpr (Nat.gcd_dvd_right _ _)) c)
  have hle : ((Nat.gcd s.a s.b : Nat) : Int) ≤ |s.gap d c| :=
    Int.le_of_dvd (abs_pos.mpr hgap) ((dvd_abs _ _).mpr hdvd)
  have hmul : (s.scale : Int) * (Nat.gcd s.a s.b : Nat) ≤ s.scale * |s.gap d c| :=
    mul_le_mul_of_nonneg_left hle (Int.natCast_nonneg _)
  have hlt : (s.b : Int) < s.scale * (Nat.gcd s.a s.b : Nat) := by exact_mod_cast h
  omega

/-! ## §1. Coordinates -/

/-- Two pairs. -/
structure Basis where
  d₁ : Int
  c₁ : Int
  d₂ : Int
  c₂ : Int

namespace Basis

/-- The determinant. -/
def det (w : Basis) : Int := w.d₁ * w.c₂ - w.d₂ * w.c₁

/-- The pair with these coordinates. -/
def pair (w : Basis) (u v : Int) : Int × Int := (u * w.d₁ + v * w.d₂, u * w.c₁ + v * w.c₂)

/-- A basis of determinant one reaches every pair. -/
theorem exists_coordinates {w : Basis} (hdet : w.det * w.det = 1) (d c : Int) :
    ∃ u v, w.pair u v = (d, c)
      ∧ |u| = |d * w.c₂ - c * w.d₂| ∧ |v| = |d * w.c₁ - c * w.d₁| := by
  have habs : |w.det| = 1 := by
    rcases mul_self_eq_one_iff.mp hdet with h | h <;> rw [h] <;> rfl
  refine ⟨w.det * (d * w.c₂ - c * w.d₂), -(w.det * (d * w.c₁ - c * w.d₁)), ?_, ?_, ?_⟩
  · unfold pair
    unfold det at *
    refine Prod.ext ?_ ?_
    · linear_combination d * hdet
    · linear_combination c * hdet
  · rw [abs_mul, habs, one_mul]
  · rw [abs_neg, abs_mul, habs, one_mul]

end Basis

/-- How large the coordinate along one pair can be, given the other pair. -/
def bound (s : Strip) (d c : Int) : Nat :=
  (s.scale * s.most * (s.gap d c).natAbs + d.natAbs * s.b) / (s.scale * s.b)

/-- **A pair in the strip has small coordinates.** -/
theorem Near.abs_le_bound {s : Strip} {d c d' c' : Int} (h : s.Near d c) (hscale : 0 < s.scale)
    (hb : 0 < s.b) : |d * c' - c * d'| ≤ s.bound d' c' := by
  obtain ⟨hpos, hmost, hnear⟩ := h
  have hexpand : (d * c' - c * d') * s.b = d' * s.gap d c - d * s.gap d' c' := by
    unfold gap
    ring
  have hb' : (0 : Int) < s.b := by exact_mod_cast hb
  have hscale' : (0 : Int) < s.scale := by exact_mod_cast hscale
  have hsum : |d * c' - c * d'| * s.b ≤ |d'| * |s.gap d c| + s.most * |s.gap d' c'| := by
    calc |d * c' - c * d'| * s.b = |(d * c' - c * d') * s.b| := by rw [abs_mul, Nat.abs_cast]
      _ = |d' * s.gap d c - d * s.gap d' c'| := by rw [hexpand]
      _ ≤ |d' * s.gap d c| + |d * s.gap d' c'| := abs_sub _ _
      _ = |d'| * |s.gap d c| + |d| * |s.gap d' c'| := by rw [abs_mul, abs_mul]
      _ ≤ |d'| * |s.gap d c| + s.most * |s.gap d' c'| := by
        have hd : |d| ≤ s.most := by rwa [abs_of_pos hpos]
        have := mul_le_mul_of_nonneg_right hd (abs_nonneg (s.gap d' c'))
        omega
  have hscaled : |d * c' - c * d'| * (s.scale * s.b)
      ≤ s.scale * s.most * |s.gap d' c'| + |d'| * s.b := by
    calc |d * c' - c * d'| * (s.scale * s.b) = s.scale * (|d * c' - c * d'| * s.b) := by ring
      _ ≤ s.scale * (|d'| * |s.gap d c| + s.most * |s.gap d' c'|) :=
        mul_le_mul_of_nonneg_left hsum hscale'.le
      _ = s.scale * s.most * |s.gap d' c'| + |d'| * (s.scale * |s.gap d c|) := by ring
      _ ≤ s.scale * s.most * |s.gap d' c'| + |d'| * s.b := by
        have := mul_le_mul_of_nonneg_left hnear (abs_nonneg d')
        omega
  rw [Int.abs_eq_natAbs, Int.abs_eq_natAbs, Int.abs_eq_natAbs] at hscaled
  rw [Int.abs_eq_natAbs]
  have hnat : (d * c' - c * d').natAbs * (s.scale * s.b)
      ≤ s.scale * s.most * (s.gap d' c').natAbs + d'.natAbs * s.b := by exact_mod_cast hscaled
  have hdiv := (Nat.le_div_iff_mul_le (Nat.mul_pos hscale hb)).mpr hnat
  exact_mod_cast hdiv

/-! ## §2. Candidates -/

/-- The integers up to `k` on both sides of zero. -/
def around (k : Nat) : List Int := (List.range (2 * k + 1)).map fun i : Nat => (i : Int) - k

theorem mem_around {k : Nat} {u : Int} (h : |u| ≤ k) : u ∈ around k := by
  obtain ⟨hlow, hhigh⟩ := abs_le.mp h
  have hindex : (u + k).toNat < 2 * k + 1 := by omega
  refine List.mem_map.mpr ⟨(u + k).toNat, List.mem_range.mpr hindex, ?_⟩
  omega

/-- The pairs that the coordinates of the strip allow. -/
def candidates (s : Strip) (w : Basis) : List (Int × Int) :=
  (around (s.bound w.d₂ w.c₂)).flatMap fun u =>
    (around (s.bound w.d₁ w.c₁)).map fun v => w.pair u v

/-- **The pairs in the strip are among the candidates.** -/
theorem mem_candidates {s : Strip} {w : Basis} (hdet : w.det * w.det = 1) (hscale : 0 < s.scale)
    (hb : 0 < s.b) {d c : Int} (h : s.Near d c) : (d, c) ∈ s.candidates w := by
  obtain ⟨u, v, hpair, hu, hv⟩ := Basis.exists_coordinates hdet d c
  refine List.mem_flatMap.mpr ⟨u, mem_around ?_, List.mem_map.mpr ⟨v, mem_around ?_, hpair⟩⟩
  · rw [hu]
    exact h.abs_le_bound hscale hb
  · rw [hv]
    exact h.abs_le_bound hscale hb

/-- Euclid's algorithm, until the digits of the second pair are past the strip. -/
def follow (most : Nat) : Nat → Nat → Nat → Basis → Basis
  | 0, _, _, w => w
  | steps + 1, a, b, w =>
    if b = 0 ∨ most < w.d₂ then w
    else
      follow most steps b (a % b)
        ⟨w.d₂, w.c₂, (a / b : Nat) * w.d₂ + w.d₁, (a / b : Nat) * w.c₂ + w.c₁⟩

/-- A basis that follows the strip. -/
def basis (s : Strip) : Basis := follow s.most 64 s.a s.b ⟨1, 0, 0, 1⟩

/-- Does the test hold of every pair of the strip whose difference is not zero?  It may be tried on
    other pairs too. -/
def check (s : Strip) (test : Int → Int → Bool) : Bool :=
  s.b < s.scale * Nat.gcd s.a s.b
    || (s.basis.det * s.basis.det == 1
      && (s.candidates s.basis).all fun p => !decide (s.Near p.1 p.2) || test p.1 p.2)

/-- A check of the candidates settles the whole strip. -/
theorem test_of_check {s : Strip} {test : Int → Int → Bool} (h : s.check test = true)
    (hscale : 0 < s.scale) (hb : 0 < s.b) {d c : Int} (hnear : s.Near d c) (hgap : s.gap d c ≠ 0) :
    test d c = true := by
  unfold check at h
  rw [Bool.or_eq_true, Bool.and_eq_true, decide_eq_true_eq, beq_iff_eq, List.all_eq_true] at h
  rcases h with hcoarse | ⟨hdet, hall⟩
  · exact absurd hnear (not_near_of_coarse hcoarse hgap)
  · have hpair := hall (d, c) (mem_candidates hdet hscale hb hnear)
    rw [decide_eq_true hnear] at hpair
    exact hpair

end Strip

end Shading
