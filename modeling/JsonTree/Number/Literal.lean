import JsonTree.Bytes
import JsonTree.Number

/-!
# Number literals

The number syntax of RFC 8259, read by longest match: an optional minus, an integer part without a
leading zero, and then a fraction and an exponent where they are present.

## Main definitions

- `Literal`: the parts of a number literal.
- `Literal.read`: the longest literal at the front of a byte string.
- `Literal.significand`, `Literal.scale`: the exact value, as a decimal.
- `Literal.nearest?`: the double nearest to that value.
-/

namespace JsonTree

/-- A number literal, taken apart. -/
structure Literal where
  /-- Whether the literal begins with a minus. -/
  negative : Bool
  /-- The digits of the integer part. -/
  whole : Bytes
  /-- The digits after the point. -/
  fraction : Option Bytes
  /-- The exponent: whether it has a minus, and its digits. -/
  exponent : Option (Bool × Bytes)
deriving DecidableEq

namespace Literal

/-! ## §1 Syntax -/

/-- The run of digits at the front, and what follows it; at least one digit is required. -/
def digits? (bs : Bytes) : Option (Bytes × Bytes) :=
  match bs.takeWhile Byte.isDigit with
  | [] => none
  | ds => some (ds, bs.dropWhile Byte.isDigit)

/-- The integer part: a single zero, or all digits of a run that begins with another digit. -/
def whole? : Bytes → Option (Bytes × Bytes)
  | [] => none
  | b :: rest => if b == 0x30 then some ([b], rest) else digits? (b :: rest)

/-- The fraction, if a point follows. The point requires a digit. -/
def fraction? : Bytes → Option (Option Bytes × Bytes)
  | [] => some (none, [])
  | b :: rest =>
    if b == 0x2E then (digits? rest).map fun (ds, rest) => (some ds, rest)
    else some (none, b :: rest)

/-- The sign of an exponent. -/
def exponentSign : Bytes → Bool × Bytes
  | [] => (false, [])
  | b :: rest =>
    if b == 0x2B then (false, rest)
    else if b == 0x2D then (true, rest)
    else (false, b :: rest)

/-- The exponent, if the letter `e` follows in either case. The letter requires a digit. -/
def exponent? : Bytes → Option (Option (Bool × Bytes) × Bytes)
  | [] => some (none, [])
  | b :: rest =>
    if b == 0x65 || b == 0x45 then
      let (minus, rest) := exponentSign rest
      (digits? rest).map fun (ds, rest) => (some (minus, ds), rest)
    else some (none, b :: rest)

/-- The longest literal at the front, and what follows it. The caller says whether the first byte is
a minus. -/
def read (negative : Bool) (bs : Bytes) : Option (Literal × Bytes) := do
  let (whole, rest) ← whole? (if negative then bs.drop 1 else bs)
  let (fraction, rest) ← fraction? rest
  let (exponent, rest) ← exponent? rest
  some (⟨negative, whole, fraction, exponent⟩, rest)

/-! ## §2 Exact value -/

/-- The number that a run of digits spells. -/
def natOfDigits (ds : Bytes) : Nat := ds.foldl (fun n d => 10 * n + (d.toNat - 0x30)) 0

/-- The number with the given sign and size. -/
def signed (negative : Bool) (n : Nat) : Int := if negative then -n else n

/-- Whether the literal has neither fraction nor exponent. -/
def isInteger (l : Literal) : Bool := l.fraction.isNone && l.exponent.isNone

/-- All digits before the exponent, as one number. -/
def significand (l : Literal) : Nat := natOfDigits (l.whole ++ l.fraction.getD [])

/-- The power of ten that the significand is taken at. -/
def scale (l : Literal) : Int :=
  let (minus, ds) := l.exponent.getD (false, [])
  signed minus (natOfDigits ds) - (l.fraction.getD []).length

/-- The double nearest to the literal, or none where it is beyond the finite doubles. -/
def nearest? (l : Literal) : Option Binary64 :=
  Binary64.ofDecimal l.negative l.significand l.scale

end Literal

end JsonTree
