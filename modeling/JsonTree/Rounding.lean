/-!
# Rounding a quotient

A quotient of natural numbers is rounded to a significand of limited width times a power of two.
The exponent is the one at which the significand just fits, but never below a least exponent:
below it the significand grows shorter, down to zero. Ties go to the even neighbour.

## Main definitions

- `Rounding.nearest`: the integer nearest to a quotient.
- `Rounding.log2`: the binary order of magnitude of a quotient.
- `Rounding.round`: the significand and the exponent of the rounded quotient.
-/

namespace JsonTree.Rounding

/-- The integer nearest to `num / den`; a half goes to the even neighbour. -/
def nearest (num den : Nat) : Nat :=
  let whole := num / den
  let rest := 2 * (num % den)
  if rest < den then whole
  else if den < rest then whole + 1
  else whole + whole % 2

/-- The exponent `l` with `2 ^ l ≤ num / den < 2 ^ (l + 1)`, for positive `num` and `den`. -/
def log2 (num den : Nat) : Int :=
  let l : Int := num.log2 - den.log2
  if num <<< (-l).toNat < den <<< l.toNat then l - 1 else l

/-- The significand `m` and the exponent `q` such that `m * 2 ^ q` is `num / den` rounded to `width`
bits, with no exponent below `least`. Rounding up may give `m = 2 ^ width`. -/
def round (width : Nat) (least : Int) (num den : Nat) : Nat × Int :=
  let q := max (log2 num den - (width - 1)) least
  (nearest (num <<< (-q).toNat) (den <<< q.toNat), q)

end JsonTree.Rounding
