import JsonTree.Number.Literal

/-!
# Numbers from literals

The digits of a literal are collected in machine words on the way. That is enough for an integer in
the 64-bit range, and for a short decimal, whose double is one rounded multiplication or division
of two exact doubles. Every other literal is rounded from its exact value.

The words never wrap: an integer part that does not fit is given up and marked, and so are digits
of the fraction beyond the nineteenth significant one. The exponent stops growing at a size that
is far outside the range of short decimals.

## Main definitions

- `Collected`, `Literal.collected`: what the words hold of a literal.
- `Literal.quick?`: the double of a short decimal.
- `Literal.number?`: the number that a literal stands for.
- `Number.read`: the number at the front of a byte string.
-/

namespace JsonTree

namespace Literal

/-! ## §1 Collecting digits -/

/-- The value of a decimal digit, as a word. -/
def digitWord (d : UInt8) : UInt64 := (d - 0x30).toUInt64

/-- The integer part, as far as it fits in a word. -/
structure WholeWord where
  value : UInt64
  /-- How many significant digits the value has. -/
  digits : Nat
  /-- Whether the digits did not fit. -/
  overflow : Bool
deriving DecidableEq

/-- Take one more digit, unless the word would wrap. -/
def WholeWord.push (w : WholeWord) (d : UInt8) : WholeWord :=
  let digit := digitWord d
  let limit : UInt64 := 0xFFFFFFFFFFFFFFFF / 10
  let lastDigit : UInt64 := 0xFFFFFFFFFFFFFFFF % 10
  if w.overflow || limit < w.value || (w.value == limit && lastDigit < digit) then
    { w with overflow := true }
  else ⟨w.value * 10 + digit, w.digits + 1, false⟩

/-- Collect an integer part. A lone zero counts as no significant digit. -/
def wholeWord (ds : Bytes) : WholeWord :=
  if ds = [0x30] then ⟨0, 0, false⟩ else ds.foldl WholeWord.push ⟨0, 0, false⟩

/-- The most significant digits that are collected. -/
abbrev digitLimit : Nat := 19

/-- The integer part and the fraction, as one word. -/
structure DecimalWord where
  value : UInt64
  /-- How many digits of the fraction the value has. -/
  places : Nat
  /-- How many significant digits the value has. -/
  digits : Nat
  /-- Whether digits are missing. -/
  truncated : Bool
deriving DecidableEq

/-- Take one more digit of the fraction, while there are few enough. -/
def DecimalWord.push (w : DecimalWord) (d : UInt8) : DecimalWord :=
  if w.digits < digitLimit then
    { w with value := w.value * 10 + digitWord d, places := w.places + 1, digits := w.digits + 1 }
  else { w with truncated := true }

/-- Where the exponent stops growing. -/
abbrev exponentLimit : Nat := 400

/-- Collect the digits of an exponent. -/
def exponentSize (ds : Bytes) : Nat :=
  ds.foldl (fun e d => min exponentLimit (10 * e + (d.toNat - 0x30))) 0

/-- What the words hold of a literal. -/
structure Collected where
  whole : WholeWord
  decimal : DecimalWord
  exponent : Int
deriving DecidableEq

/-- Collect a literal. -/
def collected (l : Literal) : Collected :=
  let whole := wholeWord l.whole
  let (minus, ds) := l.exponent.getD (false, [])
  { whole
    decimal :=
      (l.fraction.getD []).foldl DecimalWord.push ⟨whole.value, 0, whole.digits, whole.overflow⟩
    exponent := signed minus (exponentSize ds) }

/-! ## §2 The number -/

/-- The integer of a sign and a word, if it is in the 64-bit range. -/
def wordInteger? (negative : Bool) (w : UInt64) : Option Int64 :=
  if negative then if w ≤ 0x8000000000000000 then some (-w.toInt64) else none
  else if w < 0x8000000000000000 then some w.toInt64 else none

/-- The integer of a literal without fraction and exponent, if it is in the 64-bit range. -/
def integer? (l : Literal) : Option Int64 :=
  let whole := l.collected.whole
  if l.isInteger && !whole.overflow then wordInteger? l.negative whole.value else none

/-- The largest significand of a short decimal: a double holds it exactly. -/
abbrev shortSignificand : UInt64 := 0x20000000000000

/-- The largest power of ten of a short decimal: a double holds it exactly. -/
abbrev shortScale : Int := 22

/-- A power of ten, as a double. -/
def powerOfTen (k : Nat) : Binary64 := .ofInt (Int.pow 10 k)

/-- The double of a short decimal: one rounded operation on two exact doubles. -/
def quick? (l : Literal) : Option Binary64 :=
  let c := l.collected
  let scale := c.exponent - c.decimal.places
  if !c.decimal.truncated && c.decimal.value ≤ shortSignificand &&
      -shortScale ≤ scale && scale ≤ shortScale then
    let x := Binary64.ofInt c.decimal.value.toNat
    let size :=
      if 0 ≤ scale then x.mul (powerOfTen scale.toNat) else x.div (powerOfTen (-scale).toNat)
    some (if l.negative then size.neg else size)
  else none

/-- The number that a literal stands for: the integer where it is one in range, else the nearest
double; none beyond the finite doubles. -/
def number? (l : Literal) : Option Number :=
  match l.integer?, l.quick? with
  | some n, _ => some (.i64 n)
  | none, some x => some (.f64 x)
  | none, none => l.nearest?.map .f64

end Literal

/-- The number at the front, and what follows its literal. -/
def Number.read (negative : Bool) (bs : Bytes) : Option (Number × Bytes) := do
  let (literal, rest) ← Literal.read negative bs
  let number ← literal.number?
  some (number, rest)

end JsonTree
