/-
  Shading.Number.Shortest — the decimal text of a binary number.

  A finite number is written with the fewest digits that read back as the same number of its own
  format; of two such numerals the nearer one, of two equally near ones the larger.
  `Format.shortest` finds the numeral by trying one digit, two digits, and so on: with `n` digits
  only the two points of the decimal grid around the number need a look.  `Decimal.text` then lays
  the digits out.

      shortest digits    reads back, no shorter numeral does
      layout             positional from 10⁻⁴ up to 10¹⁶, with an exponent outside
      a point            always there in positional form, so that the text is not an integer's
-/
import Shading.Number.Decimal

namespace Shading

/-! ## §1. The grid around a number -/

/-- A positive ratio of naturals. -/
structure Ratio where
  num : Nat
  den : Nat
deriving DecidableEq, Repr

namespace Ratio

/-- The least `k` with `r < 10 ^ k`. -/
def order (r : Ratio) : Int :=
  if r.den ≤ r.num then decimalLength (r.num / r.den)
  else 1 - decimalLength ((r.den - 1) / r.num)

/-- How often `10 ^ g` goes into the ratio, the rest and the divisor of that division. -/
def divPow (r : Ratio) (g : Int) : Nat × Nat × Nat :=
  let n := r.num * Nat.pow 10 (-g).toNat
  let d := r.den * Nat.pow 10 g.toNat
  (n / d, n % d, d)

end Ratio

/-- The exact value of a finite magnitude. -/
def Binary.ratio {f : Format} (x : Binary f) : Ratio :=
  ⟨x.significand * Nat.pow 2 x.power.toNat, Nat.pow 2 (-x.power).toNat⟩

namespace Format

/-- Does the numeral read back as this magnitude? -/
def readsBack (f : Format) (magnitude : Nat) (d : Decimal) : Bool := d.round f == magnitude

/-- The numeral of at most `n` digits (one more if they round up to a power of ten) that reads back
    as the magnitude of value `r` and is nearest to it. -/
def withDigits (f : Format) (magnitude : Nat) (r : Ratio) (n : Nat) : Option Decimal :=
  let g := r.order - n
  let (quotient, rest, divisor) := r.divPow g
  let below : Decimal := ⟨quotient, g⟩
  let above : Decimal := ⟨quotient + 1, g⟩
  match f.readsBack magnitude below, f.readsBack magnitude above with
  | true, true => some (if 2 * rest < divisor then below else above)
  | true, false => some below
  | false, true => some above
  | false, false => none

/-- All digits of a finite magnitude: a power of two below one is written with as many places as it
    has factors. -/
def allDigits {f : Format} (x : Binary f) : Decimal :=
  if 0 ≤ x.power then ⟨x.significand * Nat.pow 2 x.power.toNat, 0⟩
  else ⟨x.significand * Nat.pow 5 (-x.power).toNat, x.power⟩

/-- No number of either format needs more digits than this. -/
def enoughDigits : Nat := 17

end Format

/-- The shortest numeral that reads back as the finite nonzero `x`. -/
def Binary.shortest {f : Format} (x : Binary f) : Decimal :=
  ((List.range Format.enoughDigits).findSome? fun n =>
    f.withDigits x.magnitude x.ratio (n + 1)).getD (Format.allDigits x)

/-! ## §2. Layout -/

namespace Decimal

/-- The digits without the zeros at the end, most significant first. -/
def significantDigits (d : Decimal) : List Char :=
  ((Nat.toDigits 10 d.digits).reverse.dropWhile (· = '0')).reverse

/-- The digits with a point after the first `places`, filled with zeros where they do not reach. -/
def positional (digits : List Char) (places : Int) : List Char :=
  if places ≤ 0 then
    '0' :: '.' :: (List.replicate (-places).toNat '0' ++ digits)
  else if digits.length ≤ places then
    digits ++ List.replicate (places.toNat - digits.length) '0' ++ ['.', '0']
  else digits.take places.toNat ++ '.' :: digits.drop places.toNat

/-- The digits with a point after the first one, if there are more, and an exponent. -/
def scientific (digits : List Char) (exponent : Int) : List Char :=
  digits.take 1
    ++ (if digits.length ≤ 1 then [] else '.' :: digits.drop 1)
    ++ 'e' :: (toString exponent).toList

/-- The text of a nonzero numeral: positional if the leading digit stands for `10 ^ e` with
    `-4 ≤ e < 16`, with an exponent otherwise. -/
def chars (d : Decimal) : List Char :=
  let digits := d.significantDigits
  if -4 < d.order ∧ d.order ≤ 16 then positional digits d.order
  else scientific digits (d.order - 1)

end Decimal

/-- The text of a number. -/
def Binary.text {f : Format} (x : Binary f) : String :=
  if x.isNaN then "NaN"
  else
    let sign := if x.negative then "-" else ""
    if !x.isFinite then sign ++ "inf"
    else if x.magnitude = 0 then sign ++ "0.0"
    else sign ++ String.ofList x.shortest.chars

end Shading
