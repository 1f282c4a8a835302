/-
  Shading.Number.Decimal — numerals in decimal notation.

  `Decimal` is a numeral's value without its sign, `digits · 10 ^ exponent`.  The module reads the
  three spellings of a fractional numeral (`1.5`, `.5`, `15e-1`) and rounds a numeral to a binary
  number.  Numerals are never too long or too large to read: an exponent out of all proportion is
  settled before any power of ten is formed.
-/
import Shading.Number.Binary

namespace Shading

/-- The nonnegative number `digits · 10 ^ exponent`. -/
structure Decimal where
  digits : Nat
  exponent : Int
deriving DecidableEq, Repr

/-! ## §1. Digits -/

/-- The natural that a run of decimal digits spells. -/
def digitsValue (cs : List Char) : Nat :=
  cs.foldl (fun n c => 10 * n + (c.toNat - '0'.toNat)) 0

/-- How many digits the decimal spelling of `n` has; one for zero. -/
def decimalLength (n : Nat) : Nat := (Nat.toDigits 10 n).length

/-- Splits off a leading minus sign. -/
def splitSign : List Char → Bool × List Char
  | '-' :: rest => (true, rest)
  | cs => (false, cs)

/-- Splits off a leading sign of either kind. -/
def splitAnySign : List Char → Bool × List Char
  | '+' :: rest => (false, rest)
  | cs => splitSign cs

/-- Is this a nonempty run of decimal digits and nothing else? -/
def isDigits (cs : List Char) : Bool := !cs.isEmpty && cs.all Char.isDigit

/-! ## §2. Spellings -/

/-- The integer that the whole of `cs` spells, if it spells one: an optional minus sign and
    digits. -/
def integer? (cs : List Char) : Option Int :=
  let (negative, digits) := splitSign cs
  if isDigits digits then
    some (if negative then -(digitsValue digits : Int) else digitsValue digits)
  else none

/-- The exponent that the whole of `cs` spells: a mark, an optional sign and digits. -/
def exponent? : List Char → Option Int
  | mark :: rest =>
    if mark = 'e' ∨ mark = 'E' then
      let (negative, digits) := splitAnySign rest
      if isDigits digits then
        some (if negative then -(digitsValue digits : Int) else digitsValue digits)
      else none
    else none
  | [] => none

namespace Decimal

/-- The numeral with these digits before and after the point, times a power of ten. -/
def ofParts (whole fraction : List Char) (exponent : Int) : Decimal :=
  ⟨digitsValue (whole ++ fraction), exponent - fraction.length⟩

/-- The fractional numeral that the whole of `cs` spells, without a sign: digits around a point, or
    digits with an exponent.  An exponent may also follow the first form. -/
def unsigned? (cs : List Char) : Option Decimal :=
  let whole := cs.takeWhile Char.isDigit
  match cs.dropWhile Char.isDigit with
  | '.' :: rest =>
    let fraction := rest.takeWhile Char.isDigit
    let tail := rest.dropWhile Char.isDigit
    if whole.isEmpty && fraction.isEmpty then none
    else if tail.isEmpty then some (ofParts whole fraction 0)
    else (exponent? tail).map (ofParts whole fraction)
  | tail => if whole.isEmpty then none else (exponent? tail).map (ofParts whole [])

/-- The fractional numeral that the whole of `cs` spells, with its sign. -/
def signed? (cs : List Char) : Option (Bool × Decimal) :=
  let (negative, rest) := splitSign cs
  (unsigned? rest).map fun d => (negative, d)

/-! ## §3. Rounding to binary -/

/-- The number of digits before the point: `10 ^ (d.order - 1) ≤ d < 10 ^ d.order` unless `d` is
    zero. -/
def order (d : Decimal) : Int := decimalLength d.digits + d.exponent

/-- The numerator of the numeral as a ratio. -/
def numerator (d : Decimal) : Nat := d.digits * Nat.pow 10 d.exponent.toNat

/-- The denominator of the numeral as a ratio. -/
def denominator (d : Decimal) : Nat := Nat.pow 10 (-d.exponent).toNat

/-- The magnitude of format `f` nearest to the numeral.  The first three cases need no power of
    ten: a numeral with more digits before the point than `2 ^ exponentBits` is beyond every finite
    number, one with that many zeros after it is below half of the least one. -/
def round (f : Format) (d : Decimal) : Nat :=
  if d.digits = 0 then 0
  else if (Nat.pow 2 f.exponentBits : Int) < d.order then f.infinity
  else if d.order < -(Nat.pow 2 f.exponentBits : Int) then 0
  else f.round d.numerator d.denominator

/-- The number of format `f` nearest to the numeral, with the given sign. -/
def toBinary (f : Format) (negative : Bool) (d : Decimal) : Binary f :=
  .make f negative (d.round f)

end Decimal

end Shading
