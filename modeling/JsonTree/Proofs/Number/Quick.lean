import JsonTree.Proofs.Number.Longest

/-!
# Short decimals

A literal with few digits and a small exponent becomes a double by one multiplication or division.
This is right because nothing has been lost on the way to it: the word holds every digit of the
literal, the exponent has not met its limit, and both operands are exact as doubles. Then the one
rounding is that of the literal itself, and rounding from the exact value gives the same.

## Main definitions

- `Literal.power`: the exponent of a literal, as it is written.
- `Literal.Short`: what the words hold of a short decimal, and the double that it becomes.

## Main statements

- `Literal.short_of_quick?`: the quick way is open to no other literals.
- `Number.read_short`: the number of a text whose longest numeral goes the quick way.
-/

namespace JsonTree

open Grammar

/-! ## §1 Exact operands -/

namespace Binary64

theorem size_ofInt {v : Nat} (hv : v ≤ 2 ^ 53) : (ofInt v).size = v := by
  have hpow : (2 : ℚ) ^ 1074 ≠ 0 := by positivity
  rw [size, (units_short hv).1, Nat.cast_mul, Nat.cast_pow, Nat.cast_ofNat,
    mul_div_cancel_right₀ _ hpow]

theorem size_ten_pow {k : Nat} (hk : k ≤ 22) : (ofInt (10 ^ k)).size = 10 ^ k := by
  have hpow : (2 : ℚ) ^ 1074 ≠ 0 := by positivity
  rw [size, (units_ten_pow hk).1, Nat.cast_mul, Nat.cast_pow, Nat.cast_pow, Nat.cast_ofNat,
    Nat.cast_ofNat, mul_div_cancel_right₀ _ hpow]

end Binary64

namespace Literal

/-! ## §2 What the words hold -/

/-- The exponent of a literal, as it is written. -/
def power (l : Literal) : Int :=
  let (minus, ds) := l.exponent.getD (false, [])
  signed minus (natOfDigits ds)

theorem scale_eq_power (l : Literal) : l.scale = l.power - (l.fraction.getD []).length := rfl

/-- What the words hold of a short decimal, and the double that it becomes. -/
structure Short (l : Literal) (x : Binary64) : Prop where
  /-- No digit of the literal is missing in the word, and the word has not wrapped. -/
  significand : l.collected.decimal.value.toNat = l.significand
  places : l.collected.decimal.places = (l.fraction.getD []).length
  /-- The exponent has not met its limit. -/
  exponent : l.collected.exponent = l.power
  significand_le : l.collected.decimal.value.toNat ≤ 2 ^ 53
  scale_ge : -22 ≤ l.collected.exponent - l.collected.decimal.places
  scale_le : l.collected.exponent - l.collected.decimal.places ≤ 22
  /-- What the words hold is the size of the literal. -/
  size : (l.collected.decimal.value.toNat : ℚ) *
    10 ^ (l.collected.exponent - l.collected.decimal.places) = l.size
  /-- Both operands are exact. -/
  operand : (Binary64.ofInt l.collected.decimal.value.toNat).size = l.significand
  powerOfTen : (powerOfTen l.scale.natAbs).size = 10 ^ l.scale.natAbs
  /-- The double is the result of one operation on them. -/
  operation : x = l.oneOperation
  /-- It is the double nearest to the literal, and the one that rounding the literal gives. -/
  nearest : x.IsNearest l.negative l.size
  rounded : l.nearest? = some x

variable {l : Literal} {x : Binary64}

/-- The quick way is open to short decimals only. -/
theorem short_of_quick? (hl : l.Digital) (h : l.quick? = some x) : l.Short x := by
  obtain ⟨htruncated, hvalue, hlow, hhigh, hoperation⟩ := (quick?_eq_some_iff l x).mp h
  obtain ⟨hexact, -⟩ := holds_decimal hl
  obtain ⟨hsignificand, -, hplaces⟩ := hexact htruncated
  have hscale := scale_eq hl htruncated hlow hhigh
  have hrounded := nearest?_of_quick? hl h
  have hlimit : shortScale = 22 := rfl
  have htenth : l.scale.natAbs ≤ 22 := by omega
  constructor
  case significand => exact hsignificand
  case places => exact hplaces
  case exponent =>
    -- The scale of the words is that of the literal, so the exponent was not cut off.
    rw [scale_eq_power] at hscale
    omega
  case significand_le => exact hvalue
  case scale_ge => exact hlow
  case scale_le => exact hhigh
  case size => rw [hsignificand, hscale, size]
  case operand => rw [Binary64.size_ofInt hvalue, hsignificand]
  case powerOfTen => exact Binary64.size_ten_pow htenth
  case operation => exact hoperation.symm
  case nearest => exact ((nearest?_eq_some_iff l x).mp hrounded).2
  case rounded => exact hrounded

end Literal

/-! ## §3 The number -/

open Literal

/-- Where the quick way is taken, the words hold the literal exactly, and the number is the double
nearest to it. -/
theorem Number.read_short {bs rest : Bytes} {l : Literal} {x : Binary64}
    (hread : Literal.read (beginsMinus bs) bs = some (l, rest)) (hinteger : l.integer? = none)
    (hquick : l.quick? = some x) :
    l.Short x ∧ Number.read (beginsMinus bs) bs = some (.f64 x, rest) := by
  obtain ⟨-, text, hlongest⟩ := (Literal.read_eq_some_iff bs l rest).mp hread
  refine ⟨short_of_quick? (digital_of_numeral hlongest.numeral) hquick, ?_⟩
  rw [Number.read_of_literal hread, number?, hinteger, hquick]
  rfl

/-- Nineteen digits of a fraction, which are as many as the word takes, and an exponent. -/
theorem Number.read_short_nineteen :
    let bs := Bytes.ofAscii "-0.0000000000000012345e+5]"
    let l : Literal :=
      ⟨true, Bytes.ofAscii "0", some (Bytes.ofAscii "0000000000000012345"),
        some (false, Bytes.ofAscii "5")⟩
    let x : Binary64 := ⟨0xBDE0F782BF7CC83F⟩
    Literal.read (beginsMinus bs) bs = some (l, [Byte.closeArray]) ∧ l.integer? = none ∧
      l.quick? = some x ∧ l.Short x ∧
      Number.read (beginsMinus bs) bs = some (.f64 x, [Byte.closeArray]) := by
  intro bs l x
  have hread : Literal.read (beginsMinus bs) bs = some (l, [Byte.closeArray]) := by decide +kernel
  have hinteger : l.integer? = none := by decide +kernel
  have hquick : l.quick? = some x := by decide +kernel
  exact ⟨hread, hinteger, hquick, Number.read_short hread hinteger hquick⟩

end JsonTree
