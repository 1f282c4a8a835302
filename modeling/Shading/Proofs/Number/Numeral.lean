/-
  Shading.Proofs.Number.Numeral — the text of a number reads back as the number.

  The shortest numeral of a number is rounded to it by the way it was found.  Its text need not spell
  the same digits and exponent: zeros are left out at the end, or filled in before the point.  What it
  spells is the numeral with its digits moved (`Decimal.shift`), and that is rounded alike.
-/
import Shading.Proofs.Number.Range
import Shading.Proofs.Sexp.Words

namespace Shading

open List

variable {f : Format}

/-! ## §1. Digits moved to the left -/

theorem decimalLength_mul_pow {n : Nat} (hn : 0 < n) (j : Nat) :
    decimalLength (n * 10 ^ j) = decimalLength n + j := by
  induction j with
  | zero => rw [Nat.pow_zero, Nat.mul_one, Nat.add_zero]
  | succ j ih =>
    have hstep : n * 10 ^ (j + 1) = n * 10 ^ j * 10 := by rw [Nat.pow_succ, Nat.mul_assoc]
    have hpos : 0 < n * 10 ^ j := Nat.mul_pos hn (Nat.pow_pos (by decide))
    have hdiv : n * 10 ^ j * 10 / 10 = n * 10 ^ j := Nat.mul_div_cancel _ (by decide)
    rw [hstep, decimalLength, Nat.toDigits_of_base_le (by decide) (by omega), hdiv,
      length_append, ← decimalLength, ih]
    rfl

namespace Decimal

/-- The same number with zeros after its digits. -/
def shift (d : Decimal) (j : Nat) : Decimal := ⟨d.digits * 10 ^ j, d.exponent - j⟩

theorem shift_zero (d : Decimal) : d.shift 0 = d := by
  rw [shift, Nat.pow_zero, Nat.mul_one, Int.natCast_zero, Int.sub_zero]

theorem value_shift (d : Decimal) (j : Nat) : (d.shift j).value = d.value := by
  rw [value, value, shift, Nat.cast_mul, Nat.cast_pow, mul_assoc, Nat.cast_ofNat, ← zpow_natCast,
    ← zpow_add₀ (by norm_num), add_sub_cancel]

/-- **Zeros at the end make no difference.** -/
theorem round_shift (hf : 0 < f.fractionBits) (d : Decimal) (j : Nat) :
    (d.shift j).round f = d.round f := by
  rcases Nat.eq_zero_or_pos d.digits with hzero | hpos
  · have hshift : (d.shift j).digits = 0 := by rw [shift, hzero, Nat.zero_mul]
    rw [round, round, if_pos hshift, if_pos hzero]
  · have hdigits : (d.shift j).digits ≠ 0 := Nat.ne_of_gt (Nat.mul_pos hpos (Nat.pow_pos (by decide)))
    have horder : (d.shift j).order = d.order := by
      show (decimalLength (d.digits * 10 ^ j) : Int) + (d.exponent - j)
        = decimalLength d.digits + d.exponent
      rw [decimalLength_mul_pow hpos]
      omega
    have hround := Format.round_congr hf (denominator_pos _) (denominator_pos _)
      ((d.shift j).ratio_eq_value.trans ((d.value_shift j).trans d.ratio_eq_value.symm))
    rw [round, round, if_neg hdigits, if_neg (Nat.ne_of_gt hpos), horder, hround]

end Decimal

/-! ## §2. Digits without zeros at the end -/

theorem digitsValue_append_zeros (cs : List Char) (j : Nat) :
    digitsValue (cs ++ List.replicate j '0') = digitsValue cs * 10 ^ j := by
  show Nat.ofDigitChars 10 _ 0 = Nat.ofDigitChars 10 cs 0 * 10 ^ j
  rw [Nat.ofDigitChars_append, Nat.ofDigitChars_replicate_zero, Nat.mul_comm]

theorem digitsValue_zeros_append (cs : List Char) (j : Nat) :
    digitsValue (List.replicate j '0' ++ cs) = digitsValue cs := by
  show Nat.ofDigitChars 10 _ 0 = Nat.ofDigitChars 10 cs 0
  rw [Nat.ofDigitChars_append, Nat.ofDigitChars_replicate_zero, Nat.mul_zero]

variable {d : Decimal}

namespace Decimal

/-- The digits of a numeral end in zeros that are not significant. -/
theorem toDigits_eq (d : Decimal) :
    ∃ z, Nat.toDigits 10 d.digits = d.significantDigits ++ List.replicate z '0' := by
  let zeros := (Nat.toDigits 10 d.digits).reverse.takeWhile (· = '0')
  have hzeros : zeros = List.replicate zeros.length '0' := by
    refine eq_replicate_of_mem fun c hc => ?_
    have := all_eq_true.mp (all_takeWhile (p := (· = '0'))) c hc
    exact of_decide_eq_true this
  refine ⟨zeros.length, ?_⟩
  have hsplit : (Nat.toDigits 10 d.digits).reverse
      = zeros ++ (Nat.toDigits 10 d.digits).reverse.dropWhile (· = '0') :=
    takeWhile_append_dropWhile.symm
  have hreverse := congrArg List.reverse hsplit
  rw [reverse_reverse, reverse_append, hzeros, reverse_replicate] at hreverse
  exact hreverse

theorem isDigit_of_mem_significantDigits {c : Char} (hc : c ∈ d.significantDigits) :
    c.isDigit = true := by
  obtain ⟨z, hz⟩ := d.toDigits_eq
  have hmem : c ∈ Nat.toDigits 10 d.digits := by
    rw [hz]
    exact mem_append_left _ hc
  exact Nat.isDigit_of_mem_toDigits (by decide) (by decide) hmem

theorem significantDigits_ne_nil (h : d.digits ≠ 0) : d.significantDigits ≠ [] := by
  intro hnil
  obtain ⟨z, hz⟩ := d.toDigits_eq
  have hvalue := digitsValue_toDigits d.digits
  rw [hz, digitsValue_append_zeros, hnil] at hvalue
  rw [← hvalue] at h
  exact h (Nat.zero_mul _)

/-- The number that the significant digits and the order give. -/
def compact (d : Decimal) : Decimal :=
  ⟨digitsValue d.significantDigits, d.order - d.significantDigits.length⟩

/-- A numeral is its compact form with zeros behind the digits. -/
theorem compact_shift (d : Decimal) : ∃ z, d = d.compact.shift z := by
  obtain ⟨z, hz⟩ := d.toDigits_eq
  have hvalue := digitsValue_toDigits d.digits
  rw [hz, digitsValue_append_zeros] at hvalue
  have hlength : decimalLength d.digits = d.significantDigits.length + z := by
    rw [decimalLength, hz, length_append, length_replicate]
  have hexponent : d.exponent = d.order - d.significantDigits.length - z := by
    unfold order
    omega
  exact ⟨z, (Decimal.mk.injEq ..).mpr ⟨hvalue.symm, hexponent⟩⟩

theorem round_compact (hf : 0 < f.fractionBits) (d : Decimal) : d.compact.round f = d.round f := by
  obtain ⟨z, hz⟩ := d.compact_shift
  conv => rhs; rw [hz]
  exact (round_shift hf d.compact z).symm

end Decimal

/-! ## §3. Spellings -/

variable {cs : List Char}

/-- A run of digits ends where the digits do. -/
theorem takeWhile_digits (rest : List Char) (h : ∀ c ∈ cs, c.isDigit = true)
    (hrest : ∀ c ∈ rest.head?, c.isDigit = false) :
    (cs ++ rest).takeWhile Char.isDigit = cs ∧ (cs ++ rest).dropWhile Char.isDigit = rest := by
  have hnone : rest.takeWhile Char.isDigit = [] ∧ rest.dropWhile Char.isDigit = rest := by
    cases rest with
    | nil => exact ⟨rfl, rfl⟩
    | cons c rest =>
      have hc : ¬ c.isDigit = true := by
        rw [hrest c rfl]
        nofun
      exact ⟨takeWhile_cons_of_neg hc, dropWhile_cons_of_neg hc⟩
  rw [takeWhile_append_of_pos h, dropWhile_append_of_pos h, hnone.1, hnone.2,
    List.append_nil]
  exact ⟨rfl, rfl⟩

theorem splitAnySign_digits (h : isDigits cs = true) : splitAnySign cs = (false, cs) := by
  unfold splitAnySign
  split
  next => cases h
  next => exact splitSign_digits h

/-- Every exponent is read back from its text. -/
theorem exponent?_toString (k : Int) : exponent? ('e' :: (toString k).toList) = some k := by
  cases k with
  | ofNat m =>
    have htext : (toString (Int.ofNat m)).toList = Nat.toDigits 10 m := Nat.toList_repr
    have hdigits := isDigits_toDigits m
    rw [htext]
    simp [exponent?, splitAnySign_digits hdigits, hdigits, digitsValue_toDigits]
  | negSucc m =>
    have hdigits := isDigits_toDigits (m + 1)
    rw [toList_toString_negSucc]
    simp [exponent?, splitAnySign, splitSign, hdigits, digitsValue_toDigits]
    omega

namespace Decimal

section

variable {whole fraction : List Char} (hwhole : ∀ c ∈ whole, c.isDigit = true) (hne : whole ≠ [])
  (hfraction : ∀ c ∈ fraction, c.isDigit = true)

include hwhole hne

theorem unsigned?_exponent {tail : List Char} {k : Int} (htail : exponent? ('e' :: tail) = some k) :
    unsigned? (whole ++ 'e' :: tail) = some (ofParts whole [] k) := by
  obtain ⟨htake, hdrop⟩ := takeWhile_digits ('e' :: tail) hwhole (by rintro c ⟨⟩; rfl)
  simp [unsigned?, htake, hdrop, hne, htail]

include hfraction

theorem unsigned?_point : unsigned? (whole ++ '.' :: fraction) = some (ofParts whole fraction 0) := by
  obtain ⟨htake, hdrop⟩ := takeWhile_digits ('.' :: fraction) hwhole (by rintro c ⟨⟩; rfl)
  obtain ⟨htake', hdrop'⟩ := takeWhile_digits [] hfraction nofun
  rw [List.append_nil] at htake' hdrop'
  simp [unsigned?, htake, hdrop, htake', hdrop', hne]

theorem unsigned?_point_exponent {tail : List Char} {k : Int}
    (htail : exponent? ('e' :: tail) = some k) :
    unsigned? (whole ++ '.' :: (fraction ++ 'e' :: tail)) = some (ofParts whole fraction k) := by
  obtain ⟨htake, hdrop⟩ := takeWhile_digits ('.' :: (fraction ++ 'e' :: tail)) hwhole
    (by rintro c ⟨⟩; rfl)
  obtain ⟨htake', hdrop'⟩ := takeWhile_digits ('e' :: tail) hfraction (by rintro c ⟨⟩; rfl)
  simp [unsigned?, htake, hdrop, htake', hdrop', hne, htail]

end

section

variable {digits : List Char} (hdigits : ∀ c ∈ digits, c.isDigit = true) (hne : digits ≠ [])

include hdigits hne

/-- A numeral with its point in place spells the same digits, perhaps with zeros. -/
theorem unsigned?_positional (places : Int) :
    ∃ j, unsigned? (positional digits places)
      = some ((⟨digitsValue digits, places - digits.length⟩ : Decimal).shift j) := by
  have hzeros : ∀ k, ∀ c ∈ List.replicate k '0', c.isDigit = true := by
    intro k c hc
    rw [eq_of_mem_replicate hc]
    rfl
  unfold positional
  split
  next hsmall =>
    -- Zeros stand between the point and the digits.
    refine ⟨0, ?_⟩
    have hpoint := unsigned?_point (hzeros 1) nofun
      (forall_mem_append.mpr ⟨hzeros (-places).toNat, hdigits⟩)
    refine hpoint.trans (congrArg some ?_)
    rw [ofParts, digitsValue_zeros_append, digitsValue_zeros_append, shift_zero,
      length_append, length_replicate]
    refine (Decimal.mk.injEq ..).mpr ⟨rfl, ?_⟩
    omega
  next hlarge =>
    split
    next hfill =>
      -- Zeros stand between the digits and the point, and one after it.
      refine ⟨places.toNat - digits.length + 1, ?_⟩
      have hpoint := unsigned?_point
        (forall_mem_append.mpr ⟨hdigits, hzeros (places.toNat - digits.length)⟩)
        (append_ne_nil_of_left_ne_nil hne _) (hzeros 1)
      rw [append_assoc] at hpoint ⊢
      refine hpoint.trans (congrArg some ?_)
      rw [ofParts, append_assoc, replicate_append_replicate, digitsValue_append_zeros,
        length_replicate]
      refine (Decimal.mk.injEq ..).mpr ⟨rfl, ?_⟩
      dsimp only
      omega
    next hinside =>
      -- The point stands inside of the digits.
      refine ⟨0, ?_⟩
      have htake : digits.take places.toNat ≠ [] := by
        rw [ne_eq, take_eq_nil_iff, not_or]
        exact ⟨by omega, hne⟩
      have hpoint := unsigned?_point (fun c hc => hdigits c (mem_of_mem_take hc)) htake
        fun c (hc : c ∈ digits.drop places.toNat) => hdigits c (mem_of_mem_drop hc)
      refine hpoint.trans (congrArg some ?_)
      rw [ofParts, take_append_drop, length_drop, shift_zero]
      refine (Decimal.mk.injEq ..).mpr ⟨rfl, ?_⟩
      omega

/-- A numeral with an exponent spells the same digits. -/
theorem unsigned?_scientific (exponent : Int) :
    unsigned? (scientific digits exponent)
      = some ⟨digitsValue digits, exponent + 1 - digits.length⟩ := by
  have hlength := length_pos_iff.mpr hne
  have htail := exponent?_toString exponent
  unfold scientific
  split
  next hone =>
    rw [take_of_length_le hone, List.append_nil, unsigned?_exponent hdigits hne htail, ofParts,
      List.append_nil]
    refine congrArg some ((Decimal.mk.injEq ..).mpr ⟨rfl, ?_⟩)
    rw [length_nil]
    omega
  next hmore =>
    -- the point stands behind the first digit
    have htake : digits.take 1 ≠ [] := by
      rw [ne_eq, take_eq_nil_iff, not_or]
      exact ⟨nofun, hne⟩
    rw [append_assoc, cons_append,
      unsigned?_point_exponent (fun c hc => hdigits c (mem_of_mem_take hc)) htake
        (fun c hc => hdigits c (mem_of_mem_drop hc)) htail,
      ofParts, take_append_drop, length_drop]
    refine congrArg some ((Decimal.mk.injEq ..).mpr ⟨rfl, ?_⟩)
    omega

end

/-- **What the text of a numeral spells is rounded as the numeral is.** -/
theorem unsigned?_chars (hf : 0 < f.fractionBits) (h : d.digits ≠ 0) :
    ∃ d', unsigned? d.chars = some d' ∧ d'.round f = d.round f := by
  have hdigits : ∀ c ∈ d.significantDigits, c.isDigit = true := fun _ =>
    isDigit_of_mem_significantDigits
  have hne := significantDigits_ne_nil h
  unfold chars
  dsimp only
  split
  · obtain ⟨j, hj⟩ := unsigned?_positional hdigits hne d.order
    exact ⟨_, hj, (round_shift hf d.compact j).trans (round_compact hf d)⟩
  · refine ⟨_, unsigned?_scientific hdigits hne (d.order - 1), ?_⟩
    rw [Int.sub_add_cancel]
    exact round_compact hf d

theorem splitSign_of_unsigned? (h : unsigned? cs = some d) : splitSign cs = (false, cs) := by
  unfold splitSign
  split
  next rest =>
    have hminus : ('-' : Char).isDigit = false := rfl
    simp [unsigned?, hminus] at h
  next => rfl

/-- The sign is split off and kept. -/
theorem signed?_sign (h : unsigned? cs = some d) (negative : Bool) :
    signed? ((if negative then "-" else "").toList ++ cs) = some (negative, d) := by
  cases negative with
  | true =>
    show (unsigned? cs).map _ = _
    rw [h]
    rfl
  | false =>
    show (unsigned? (splitSign cs).2).map _ = _
    rw [splitSign_of_unsigned? h, h]
    show some ((splitSign cs).1, d) = _
    rw [splitSign_of_unsigned? h]

end Decimal

/-! ## §4. The shortest numeral -/

/-- A shorter numeral is only chosen if it is rounded to the number. -/
theorem Format.round_of_withDigits {magnitude n : Nat} {r : Ratio}
    (h : f.withDigits magnitude r n = some d) : d.round f = magnitude := by
  unfold withDigits at h
  dsimp only at h
  split at h
  next hbelow habove =>
    split at h
    · cases h
      exact eq_of_beq hbelow
    · cases h
      exact eq_of_beq habove
  next hbelow _ =>
    cases h
    exact eq_of_beq hbelow
  next _ habove =>
    cases h
    exact eq_of_beq habove
  next => cases h

namespace Binary

theorem make_magnitude (x : Binary f) : make f x.negative x.magnitude = x := by
  obtain ⟨negative, magnitude, bound⟩ := x
  exact (Binary.mk.injEq ..).mpr ⟨rfl, Nat.mod_eq_of_lt bound⟩

theorem significand_pos (x : Binary f) (hx : x.magnitude ≠ 0) : 0 < x.significand := by
  have hsum := f.eq_add_units x.magnitude
  rw [significand_eq]
  rcases f.le_units x.magnitude with hzero | hle
  · rw [hzero] at hsum
    omega
  · exact (Nat.two_pow_pos _).trans_le hle

/-- Written out in full, a number has a factor of five for each place behind the point. -/
theorem allDigits_eq (x : Binary f) :
    Format.allDigits x
      = ⟨x.significand * 2 ^ x.power.toNat * 5 ^ (-x.power).toNat, -((-x.power).toNat : Int)⟩ := by
  unfold Format.allDigits
  simp only [Nat.pow_eq]
  split
  next h =>
    have hneg : (-x.power).toNat = 0 := by omega
    rw [hneg, Nat.pow_zero, Nat.mul_one]
    rfl
  next h =>
    have hpos : x.power.toNat = 0 := by omega
    rw [hpos, Nat.pow_zero, Nat.mul_one]
    refine (Decimal.mk.injEq ..).mpr ⟨rfl, ?_⟩
    omega

/-- All digits of a number spell its exact value. -/
theorem value_allDigits (x : Binary f) : (Format.allDigits x).value = f.value x.magnitude := by
  rw [allDigits_eq, Decimal.value, Format.value, ← significand_eq, ← power_eq,
    zpow_eq_div two_ne_zero x.power, zpow_neg, zpow_natCast]
  have hten : (10 : ℚ) ^ (-x.power).toNat = 2 ^ (-x.power).toNat * 5 ^ (-x.power).toNat := by
    rw [← mul_pow]
    norm_num
  push_cast
  rw [hten]
  field_simp

theorem digits_allDigits {x : Binary f} (hzero : x.magnitude ≠ 0) :
    (Format.allDigits x).digits ≠ 0 := by
  intro hnone
  have hvalue := x.value_allDigits
  rw [Decimal.value, hnone, Nat.cast_zero, zero_mul, ← f.value_zero] at hvalue
  exact hzero (f.value_strictMono.injective hvalue).symm

theorem text_eq {x : Binary f} (hx : x.isFinite = true) :
    x.text.toList = (if x.negative then "-" else "").toList
      ++ if x.magnitude = 0 then ['0', '.', '0'] else x.shortest.chars := by
  have hfinite : x.magnitude < f.infinity := of_decide_eq_true hx
  have hnumber : x.isNaN = false := decide_eq_false (Nat.not_lt_of_gt hfinite)
  simp only [text, hnumber, hx, Bool.not_true, Bool.false_eq_true, if_false]
  split
  next => rw [String.toList_append]; rfl
  next => rw [String.toList_append, String.toList_ofList]

section

variable (hf : f.Wide) {x : Binary f} (hx : x.isFinite = true)

include hf hx

/-- **The digits of a number are not too many for the format**: it is below the overflow value, and
    not below the least number. -/
theorem order_allDigits (hzero : x.magnitude ≠ 0) :
    -((2 ^ f.exponentBits : Nat) : Int) ≤ (Format.allDigits x).order
      ∧ (Format.allDigits x).order ≤ (2 ^ f.exponentBits : Nat) := by
  have hfinite : x.magnitude < f.infinity := of_decide_eq_true hx
  have hroom := hf.room
  have hvalue := x.value_allDigits
  rw [hf.exponent]
  constructor
  · have hone : f.value 1 = 2 ^ f.leastPower := by
      have hfirst := Format.value_add (f := f) (k := 0) (r := 1) (Or.inl rfl)
        (by have := Nat.two_pow_pos f.fractionBits; omega)
      simpa using hfirst
    have hleast : (2 : ℚ) ^ f.leastPower < 10 ^ (Format.allDigits x).order := by
      rw [← hone]
      refine lt_of_le_of_lt ?_ (hvalue ▸ (Format.allDigits x).value_lt_pow_order)
      exact f.value_strictMono.monotone (Nat.one_le_iff_ne_zero.mpr hzero)
    by_contra hlow
    refine absurd hleast (not_lt.mpr ?_)
    calc (10 : ℚ) ^ (Format.allDigits x).order
        ≤ 10 ^ (-((2 * f.topPower : Nat) : Int)) := zpow_le_zpow_right₀ (by norm_num) (by omega)
      _ ≤ 2 ^ (-((2 * f.topPower : Nat) : Int)) := by
          rw [zpow_neg, zpow_neg, zpow_natCast, zpow_natCast]
          exact inv_anti₀ (by positivity) (pow_le_pow_left₀ (by norm_num) (by norm_num) _)
      _ ≤ 2 ^ f.leastPower := by
          refine zpow_le_zpow_right₀ (by norm_num) ?_
          rw [f.leastPower_eq]
          omega
  · by_contra hhigh
    refine Decimal.not_inRange_of_order hf (digits_allDigits hzero) (by omega)
      (Decimal.inRange_iff.mpr ?_)
    rw [hvalue, hf.overflow_eq]
    exact (f.value_strictMono.monotone (by omega)).trans_lt (f.value_lt_middle _)

/-- All digits of a number are rounded to it, so the search for fewer may fail. -/
theorem round_allDigits (hzero : x.magnitude ≠ 0) :
    (Format.allDigits x).round f = x.magnitude := by
  obtain ⟨hlow, hhigh⟩ := order_allDigits hf hx hzero
  rw [Decimal.round, if_neg (digits_allDigits hzero), Nat.pow_eq, if_neg (Int.not_lt.mpr hhigh),
    if_neg (Int.not_lt.mpr hlow),
    Format.round_eq_iff hf.fraction (Decimal.denominator_pos _) (of_decide_eq_true hx),
    Decimal.ratio_eq_value, value_allDigits]
  exact f.nearest_value _

/-- **The shortest numeral of a number is rounded to the number.** -/
theorem round_shortest (hzero : x.magnitude ≠ 0) : x.shortest.round f = x.magnitude := by
  unfold shortest
  cases hfound : (List.range Format.enoughDigits).findSome? fun n =>
      f.withDigits x.magnitude x.ratio (n + 1) with
  | none => exact round_allDigits hf hx hzero
  | some d =>
    obtain ⟨n, -, hn⟩ := exists_of_findSome?_eq_some hfound
    exact Format.round_of_withDigits hn

/-- **The text of a finite number spells a numeral that is rounded to the number.** -/
theorem signed?_text :
    ∃ d, Decimal.signed? x.text.toList = some (x.negative, d) ∧ d.toBinary f x.negative = x := by
  -- Zero is written by itself, everything else with its shortest numeral.
  suffices h : ∃ d, Decimal.unsigned? (if x.magnitude = 0 then ['0', '.', '0'] else x.shortest.chars)
      = some d ∧ d.round f = x.magnitude by
    obtain ⟨d, hd, hround⟩ := h
    refine ⟨d, by rw [text_eq hx, Decimal.signed?_sign hd], ?_⟩
    rw [Decimal.toBinary, hround, x.make_magnitude]
  by_cases hzero : x.magnitude = 0
  · refine ⟨⟨0, -1⟩, ?_, ?_⟩
    · rw [if_pos hzero]
      rfl
    · rw [Decimal.round, if_pos rfl, hzero]
  · have hround := round_shortest hf hx hzero
    have hdigits : x.shortest.digits ≠ 0 := by
      intro hnone
      rw [Decimal.round, if_pos hnone] at hround
      exact hzero hround.symm
    obtain ⟨d, hd, hsame⟩ := Decimal.unsigned?_chars hf.fraction hdigits
    refine ⟨d, ?_, hsame.trans hround⟩
    rwa [if_neg hzero]

end

end Binary

end Shading
