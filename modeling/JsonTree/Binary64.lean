import JsonTree.Rounding

/-!
# Double-precision numbers

A double is its 64 bits: a sign, and a magnitude of 63 bits that orders the magnitudes as natural
numbers. All arithmetic is exact integer arithmetic on that pattern: a finite magnitude is a whole
number of units of `2 ^ (-1074)`, so every operation here is a rounded quotient.

## Main definitions

- `Binary64.equals`: comparison as numbers, where a NaN differs from itself and the zeros agree.
- `Binary64.ofDecimal`: the double nearest to a decimal.
- `Binary64.ofInt`: the double nearest to an integer.
- `Binary64.mul`, `Binary64.div`: rounded product and quotient.
- `Binary64.toSingle`: the nearest single-precision number, as a double.
-/

namespace JsonTree

/-- A double-precision number, by its bits. -/
structure Binary64 where
  /-- The sign bit, eleven bits of exponent and 52 bits of fraction. -/
  bits : UInt64
deriving DecidableEq

namespace Binary64

/-! ## §1 Sign and magnitude -/

/-- The sign bit. -/
abbrev signBit : Nat := 0x8000000000000000

/-- The bit above the fraction, which a normal number has without saying so. -/
abbrev leadingBit : Nat := 0x10000000000000

/-- The magnitude of infinity; larger magnitudes are NaNs. -/
abbrev infinity : Nat := 0x7FF0000000000000

/-- The largest finite magnitude of single precision. -/
abbrev greatestSingle : Nat := 0x47EFFFFFE0000000

/-- The bits below the sign. -/
def magnitude (x : Binary64) : Nat := x.bits.toNat % signBit

/-- Whether the sign bit is set. -/
def negative (x : Binary64) : Bool := signBit ≤ x.bits.toNat

/-- The double of a sign and a magnitude. -/
def ofMagnitude (negative : Bool) (magnitude : Nat) : Binary64 :=
  ⟨UInt64.ofNat (magnitude + if negative then signBit else 0)⟩

/-- Whether this is no number at all. -/
def isNaN (x : Binary64) : Bool := infinity < x.magnitude

/-- Comparison as numbers: a NaN equals nothing, the two zeros are equal. -/
def equals (x y : Binary64) : Bool :=
  !x.isNaN && !y.isNaN && (x.bits == y.bits || (x.magnitude == 0 && y.magnitude == 0))

/-- A finite magnitude in units of `2 ^ (-1074)`. -/
def units (x : Binary64) : Nat :=
  let fraction := x.magnitude % leadingBit
  match x.magnitude / leadingBit with
  | 0 => fraction
  | e + 1 => (leadingBit + fraction) <<< e

/-! ## §2 Rounding to a double -/

/-- The magnitude nearest to `num / den`, or that of infinity where no finite one is near. The
significand counts units of its exponent, so a carry runs over into the exponent field. -/
def magnitudeOfRatio (num den : Nat) : Nat :=
  if num = 0 then 0
  else
    let (m, q) := Rounding.round 53 (-1074) num den
    min infinity ((q + 1074).toNat * leadingBit + m)

/-- The double nearest to an integer. -/
def ofInt (n : Int) : Binary64 := ofMagnitude (n < 0) (magnitudeOfRatio n.natAbs 1)

/-- The magnitude nearest to `digits * 10 ^ exponent`, or that of infinity. The two outer cases lie
far outside the range, and keep the powers of ten small. -/
def magnitudeOfDecimal (digits : Nat) (exponent : Int) : Nat :=
  if digits = 0 then 0
  else if 309 ≤ exponent then infinity
  else if (digits.log2 : Int) + 1 + 3 * exponent < -1075 then 0
  else magnitudeOfRatio (digits * Nat.pow 10 exponent.toNat) (Nat.pow 10 (-exponent).toNat)

/-- The double nearest to a decimal, or none where it is too large for a finite one. -/
def ofDecimal (negative : Bool) (digits : Nat) (exponent : Int) : Option Binary64 :=
  let magnitude := magnitudeOfDecimal digits exponent
  if magnitude < infinity then some (ofMagnitude negative magnitude) else none

/-! ## §3 Multiplication and division -/

/-- The rounded product of two finite numbers. -/
def mul (x y : Binary64) : Binary64 :=
  ofMagnitude (x.negative != y.negative)
    (magnitudeOfRatio (x.units * y.units) ((1 <<< 1074) * (1 <<< 1074)))

/-- The rounded quotient of a finite number by one that is not zero either. -/
def div (x y : Binary64) : Binary64 :=
  ofMagnitude (x.negative != y.negative) (magnitudeOfRatio x.units y.units)

/-- The number with the other sign. -/
def neg (x : Binary64) : Binary64 := ofMagnitude (!x.negative) x.magnitude

/-! ## §4 Single precision -/

/-- The nearest single-precision number, written as a double. A NaN and an infinity stay as they
are, and what is too large becomes an infinity. -/
def toSingle (x : Binary64) : Binary64 :=
  if infinity ≤ x.magnitude || x.magnitude == 0 then x
  else
    let (m, q) := Rounding.round 24 (-149) x.units (1 <<< 1074)
    let num := m <<< q.toNat
    let den := 1 <<< (-q).toNat
    ofMagnitude x.negative
      (if den <<< 128 ≤ num then infinity else magnitudeOfRatio num den)

/-- Whether a number lies within the finite range of single precision. -/
def fitsSingle (x : Binary64) : Bool := x.magnitude ≤ greatestSingle

end Binary64

end JsonTree
