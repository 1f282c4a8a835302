/-
  Shading.Number.Binary — binary floating point as exact arithmetic.

  A number is kept as the fields of its interchange encoding, and everything the rest of the
  library asks of it is an integer computation on those fields:

    * `Binary.significand` and `Binary.power` — a finite number has the magnitude
      `significand · 2 ^ power`;
    * `Format.round` — the encoding nearest to a ratio of naturals, ties to even;
    * `Binary.convert`, `Binary.ofInt` — the two conversions the textual form needs.

  The one idea: read as a single natural, the exponent and fraction fields of the nonnegative
  numbers run through the finite magnitudes in increasing order, and infinity follows the largest.
  A rounded significand that carries into the next binade therefore needs no case of its own.
-/

namespace Shading

/-! ## §1. Formats and encodings -/

/-- A binary interchange format: a sign bit, `exponentBits` bits of biased exponent and
    `fractionBits` bits of trailing significand. -/
structure Format where
  exponentBits : Nat
  fractionBits : Nat
deriving DecidableEq, Repr

namespace Format

/-- The 32-bit format, in which constants are stored. -/
def single : Format := ⟨8, 23⟩

/-- The 64-bit format, in which numbers are read. -/
def double : Format := ⟨11, 52⟩

/-- The number of magnitudes that can be encoded, those of the not-a-numbers included. -/
def magnitudes (f : Format) : Nat := Nat.pow 2 (f.exponentBits + f.fractionBits)

/-- The magnitude that encodes infinity. -/
def infinity (f : Format) : Nat := (Nat.pow 2 f.exponentBits - 1) * Nat.pow 2 f.fractionBits

/-- The power of two of a subnormal number's last place. -/
def leastPower (f : Format) : Int :=
  2 - (Nat.pow 2 (f.exponentBits - 1) : Int) - f.fractionBits

end Format

/-- A number of format `f`: its sign, and its exponent and fraction fields as one natural. -/
structure Binary (f : Format) where
  negative : Bool
  magnitude : Nat
  bound : magnitude < f.magnitudes
deriving DecidableEq

/-- The numbers that constants hold. -/
abbrev Single := Binary .single

/-- The numbers that are read from text. -/
abbrev Double := Binary .double

namespace Binary

variable {f : Format}

/-- The number with the given sign, and the lowest bits of `magnitude`. -/
def make (f : Format) (negative : Bool) (magnitude : Nat) : Binary f where
  negative := negative
  magnitude := magnitude % f.magnitudes
  bound := Nat.mod_lt _ (Nat.two_pow_pos _)

/-- The number whose encoding is the natural `bits`, the sign being the highest bit. -/
def ofBits (f : Format) (bits : Nat) : Binary f :=
  make f (bits / f.magnitudes % 2 == 1) bits

/-- The encoding as one natural. -/
def toBits (x : Binary f) : Nat :=
  (if x.negative then f.magnitudes else 0) + x.magnitude

/-- Positive zero. -/
def zero (f : Format) : Binary f := make f false 0

instance : Inhabited (Binary f) := ⟨zero f⟩

/-- Is the number neither infinite nor a not-a-number? -/
def isFinite (x : Binary f) : Bool := x.magnitude < f.infinity

/-- Is it a not-a-number? -/
def isNaN (x : Binary f) : Bool := f.infinity < x.magnitude

/-- The biased exponent field. -/
def exponentField (x : Binary f) : Nat := x.magnitude / Nat.pow 2 f.fractionBits

/-- The trailing significand field. -/
def fractionField (x : Binary f) : Nat := x.magnitude % Nat.pow 2 f.fractionBits

/-- The whole significand of a finite number; a normal one has a leading bit that its encoding
    leaves out. -/
def significand (x : Binary f) : Nat :=
  if x.exponentField = 0 then x.fractionField
  else Nat.pow 2 f.fractionBits + x.fractionField

/-- The power of two that the significand of a finite number counts. -/
def power (x : Binary f) : Int := f.leastPower + ((x.exponentField - 1 : Nat) : Int)

/-- Numerical equality: a not-a-number differs from everything, and the two zeros are equal. -/
def sameValue (x y : Binary f) : Bool :=
  !x.isNaN && !y.isNaN
    && (x.magnitude == y.magnitude && (x.negative == y.negative || x.magnitude == 0))

end Binary

/-! ## §2. Rounding a ratio -/

/-- The natural nearest to `n / d`; of two equally near the even one. -/
def roundDiv (n d : Nat) : Nat :=
  let quotient := n / d
  let rest := 2 * (n % d)
  if rest < d then quotient
  else if d < rest then quotient + 1
  else quotient + quotient % 2

/-- Is `2 ^ k ≤ n / d`? -/
def powLeRatio (k : Int) (n d : Nat) : Bool :=
  d * Nat.pow 2 k.toNat ≤ n * Nat.pow 2 (-k).toNat

/-- The largest `k` with `2 ^ k ≤ n / d`, for positive `n` and `d`: the difference of the two
    lengths, or one less. -/
def floorLog (n d : Nat) : Int :=
  let k : Int := (n.log2 : Int) - (d.log2 : Int)
  if powLeRatio k n d then k else k - 1

/-- The magnitude of format `f` nearest to `n / d`, ties to even; infinity from halfway past the
    largest finite number on.  The last place kept is the one that leaves `fractionBits` places
    after the leading one, but never below the last place of a subnormal. -/
def Format.round (f : Format) (n d : Nat) : Nat :=
  if n = 0 then 0
  else
    let place := max f.leastPower (floorLog n d - f.fractionBits)
    let rounded := roundDiv (n * Nat.pow 2 (-place).toNat) (d * Nat.pow 2 place.toNat)
    min ((place - f.leastPower).toNat * Nat.pow 2 f.fractionBits + rounded) f.infinity

namespace Binary

variable {f : Format}

/-- The number of format `f` nearest to an integer. -/
def ofInt (f : Format) (n : Int) : Binary f := make f (n < 0) (f.round n.natAbs 1)

/-- The number of format `g` nearest to `x`; infinities and not-a-numbers stay what they are. -/
def convert (g : Format) (x : Binary f) : Binary g :=
  if x.isNaN then make g x.negative (g.infinity + Nat.pow 2 (g.fractionBits - 1))
  else if x.isFinite then
    make g x.negative
      (g.round (x.significand * Nat.pow 2 x.power.toNat) (Nat.pow 2 (-x.power).toNat))
  else make g x.negative g.infinity

end Binary

end Shading
