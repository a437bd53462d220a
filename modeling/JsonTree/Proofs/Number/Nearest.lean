import JsonTree.Binary64
import JsonTree.Proofs.Number.Rounding
import Mathlib.Order.Monotone.Basic

/-!
# Rounding to the nearest double

Magnitudes are natural numbers in the order of the sizes they stand for, so the neighbours of a
double are the magnitudes next to its own. A size is rounded to the magnitude between whose halfway
points it lies; this determines the magnitude, which is why different ways to round one number
agree. Infinity takes part as the magnitude that would come next, and that makes the first size
that is rounded to it the halfway point `2 ^ 1024 - 2 ^ 970`.

## Main definitions

- `Binary64.IsNearest`: the finite double nearest to a number of given sign and size.

## Main statements

- `Binary64.isRounded_magnitudeOfRatio`: quotients are rounded to the nearest magnitude.
- `Binary64.IsRounded.eq`: the magnitude nearest to a size is unique.
- `Binary64.lt_limit_iff`: what is rounded to a finite magnitude lies below the limit.
- `Binary64.IsNearest.eq`: the finite double nearest to a size is unique.
-/

namespace JsonTree.Binary64

/-! ## §1 The sizes of magnitudes -/

/-- A magnitude in units of `2 ^ (-1074)`, as if the exponents had no end. -/
def unitsAt (magnitude : Nat) : Nat :=
  let fraction := magnitude % 2 ^ 52
  match magnitude / 2 ^ 52 with
  | 0 => fraction
  | e + 1 => (2 ^ 52 + fraction) * 2 ^ e

theorem units_eq_unitsAt (x : Binary64) : x.units = unitsAt x.magnitude := by
  unfold units unitsAt
  simp only [Nat.shiftLeft_eq]
  rfl

theorem unitsAt_subnormal {k : Nat} (h : k < 2 ^ 52) : unitsAt k = k := by
  have hdiv : k / 2 ^ 52 = 0 := by omega
  have hmod : k % 2 ^ 52 = k := by omega
  simp only [unitsAt, hdiv, hmod]

theorem unitsAt_normal {k e : Nat} (h : k / 2 ^ 52 = e + 1) :
    unitsAt k = (2 ^ 52 + k % 2 ^ 52) * 2 ^ e := by
  unfold unitsAt
  rw [h]

/-- The units of a significand at an exponent. The significand may be one too wide, and is then the
first one at the next exponent. -/
theorem unitsAt_add (e : Nat) {m : Nat} (hm : m ≤ 2 ^ 53) (hnormal : 2 ^ 52 ≤ m ∨ e = 0) :
    unitsAt (e * 2 ^ 52 + m) = m * 2 ^ e := by
  -- Subnormal, normal, and the carry into the exponent field.
  have hcases : m < 2 ^ 52 ∨ (2 ^ 52 ≤ m ∧ m < 2 ^ 53) ∨ m = 2 ^ 53 := by omega
  rcases hcases with hsub | ⟨hlow, hhigh⟩ | hnext
  · have he : e = 0 := by omega
    rw [he, Nat.zero_mul, Nat.zero_add, unitsAt_subnormal hsub, Nat.pow_zero, Nat.mul_one]
  · have hdiv : (e * 2 ^ 52 + m) / 2 ^ 52 = e + 1 := by omega
    have hmod : (e * 2 ^ 52 + m) % 2 ^ 52 = m - 2 ^ 52 := by omega
    rw [unitsAt_normal hdiv, hmod, Nat.add_sub_cancel' hlow]
  · have hdiv : (e * 2 ^ 52 + m) / 2 ^ 52 = (e + 1) + 1 := by omega
    have hmod : (e * 2 ^ 52 + m) % 2 ^ 52 = 0 := by omega
    rw [unitsAt_normal hdiv, hmod, hnext, Nat.pow_succ 2 e]
    omega

theorem unitsAt_next {e m : Nat} (hm : m < 2 ^ 53) (hnormal : 2 ^ 52 ≤ m ∨ e = 0) :
    unitsAt (e * 2 ^ 52 + m + 1) = (m + 1) * 2 ^ e := by
  have hnext : 2 ^ 52 ≤ m + 1 ∨ e = 0 := hnormal.imp_left Nat.le_succ_of_le
  rw [Nat.add_assoc]
  exact unitsAt_add e (Nat.succ_le_of_lt hm) hnext

theorem unitsAt_prev {e m j : Nat} (hj : j + 1 = e * 2 ^ 52 + m) (hm : m ≤ 2 ^ 53)
    (hnormal : 2 ^ 52 < m ∨ e = 0) : unitsAt j = (m - 1) * 2 ^ e := by
  have hj' : j = e * 2 ^ 52 + (m - 1) := by omega
  rw [hj']
  exact unitsAt_add e (by omega) (by omega)

/-- Every magnitude is a significand at an exponent. -/
theorem exists_significand (k : Nat) :
    ∃ e m, k = e * 2 ^ 52 + m ∧ m < 2 ^ 53 ∧ (2 ^ 52 ≤ m ∨ e = 0) := by
  by_cases hk : k < 2 ^ 52
  · exact ⟨0, k, by omega, by omega, Or.inr rfl⟩
  · exact ⟨k / 2 ^ 52 - 1, 2 ^ 52 + k % 2 ^ 52, by omega, by omega, Or.inl (by omega)⟩

/-- Magnitudes are in the order of their sizes. -/
theorem unitsAt_strictMono : StrictMono unitsAt := by
  apply strictMono_nat_of_lt_succ
  intro k
  obtain ⟨e, m, rfl, hm, hnormal⟩ := exists_significand k
  have hnext : 2 ^ 52 ≤ m + 1 ∨ e = 0 := hnormal.imp_left fun h => by omega
  rw [Nat.add_assoc, unitsAt_add e hm.le hnormal, unitsAt_add e hm hnext]
  exact Nat.mul_lt_mul_of_pos_right (Nat.lt_succ_self m) (Nat.two_pow_pos e)

theorem unitsAt_zero : unitsAt 0 = 0 := rfl

/-! ## §2 The magnitude nearest to a size -/

/-- A magnitude to which a size, counted in units, is rounded: the size lies between the points
halfway to the neighbours, and is such a point only if the magnitude is even. -/
structure IsRounded (k : Nat) (u : ℚ) : Prop where
  le : 2 * u ≤ unitsAt k + unitsAt (k + 1)
  ge : ∀ j, j + 1 = k → unitsAt j + unitsAt k ≤ 2 * u
  lt_of_odd : k % 2 = 1 → 2 * u < unitsAt k + unitsAt (k + 1)
  gt_of_odd : k % 2 = 1 → ∀ j, j + 1 = k → unitsAt j + unitsAt k < 2 * u

theorem isRounded_zero : IsRounded 0 0 := by
  constructor
  · have hnext : (0 : ℚ) ≤ unitsAt 1 := Nat.cast_nonneg _
    rw [unitsAt_zero]
    linarith
  · intro j hj
    omega
  · intro h
    omega
  · intro h
    omega

/-- A size that some magnitude has is rounded to that one. -/
theorem isRounded_unitsAt (k : Nat) : IsRounded k (unitsAt k) := by
  have hnext : (unitsAt k : ℚ) < unitsAt (k + 1) := by
    exact_mod_cast unitsAt_strictMono (Nat.lt_succ_self k)
  have hprev : ∀ j, j + 1 = k → (unitsAt j : ℚ) < unitsAt k := by
    intro j hj
    exact_mod_cast unitsAt_strictMono (by omega)
  constructor
  · linarith
  · intro j hj
    linarith [hprev j hj]
  · intro _
    linarith
  · intro _ j hj
    linarith [hprev j hj]

section significands

variable {e m : Nat} {s : ℚ}

/-- A rounded significand is as wide as the quotient was, or by a carry the first one that is
wider. -/
theorem significand_bounds (hs : Rounding.IsNearest m s) (hwidth : s < 2 ^ 53)
    (hnormal : 0 < e → 2 ^ 52 ≤ s) : m ≤ 2 ^ 53 ∧ (2 ^ 52 ≤ m ∨ e = 0) := by
  constructor
  · have hlt : 2 * (m : ℚ) < 2 * 2 ^ 53 + 1 := by linarith [hs.ge]
    have : 2 * m < 2 * 2 ^ 53 + 1 := by exact_mod_cast hlt
    omega
  · rcases Nat.eq_zero_or_pos e with he | he
    · exact Or.inr he
    · left
      have hle : 2 * (2 : ℚ) ^ 52 ≤ 2 * m + 1 := by linarith [hs.le, hnormal he]
      have : 2 * 2 ^ 52 ≤ 2 * m + 1 := by exact_mod_cast hle
      omega

/-- The point halfway to the magnitude above. -/
theorem halfway_above (hs : Rounding.IsNearest m s) (hwidth : s < 2 ^ 53) (hm : m ≤ 2 ^ 53)
    (hlow : 2 ^ 52 ≤ m ∨ e = 0) :
    2 * (s * 2 ^ e) ≤ unitsAt (e * 2 ^ 52 + m) + unitsAt (e * 2 ^ 52 + m + 1) ∧
      (2 * s < 2 * m + 1 →
        2 * (s * 2 ^ e) < unitsAt (e * 2 ^ 52 + m) + unitsAt (e * 2 ^ 52 + m + 1)) := by
  have hpow : (0 : ℚ) < 2 ^ e := by positivity
  have hunits : (unitsAt (e * 2 ^ 52 + m) : ℚ) = m * 2 ^ e := by
    exact_mod_cast unitsAt_add e hm hlow
  rcases Nat.lt_or_ge m (2 ^ 53) with hlt | hge
  · have hnext : (unitsAt (e * 2 ^ 52 + m + 1) : ℚ) = (m + 1) * 2 ^ e := by
      exact_mod_cast unitsAt_next hlt hlow
    rw [hunits, hnext]
    constructor
    · nlinarith [hs.le]
    · intro hlt
      nlinarith
  · -- A carry: the grid above is coarser, but the size is below the magnitude itself.
    have hnext : (unitsAt (e * 2 ^ 52 + m) : ℚ) < unitsAt (e * 2 ^ 52 + m + 1) := by
      exact_mod_cast unitsAt_strictMono (Nat.lt_succ_self _)
    have hsm : s * 2 ^ e < m * 2 ^ e := by
      apply mul_lt_mul_of_pos_right _ hpow
      calc s < 2 ^ 53 := hwidth
        _ ≤ m := by exact_mod_cast hge
    rw [hunits] at hnext ⊢
    constructor
    · linarith
    · intro _
      linarith

/-- The point halfway to the magnitude below. -/
theorem halfway_below (hs : Rounding.IsNearest m s) (hnormal : 0 < e → 2 ^ 52 ≤ s)
    (hm : m ≤ 2 ^ 53) (hlow : 2 ^ 52 ≤ m ∨ e = 0) {j : Nat} (hj : j + 1 = e * 2 ^ 52 + m) :
    unitsAt j + unitsAt (e * 2 ^ 52 + m) ≤ 2 * (s * 2 ^ e) ∧
      (2 * (m : ℚ) < 2 * s + 1 →
        unitsAt j + unitsAt (e * 2 ^ 52 + m) < 2 * (s * 2 ^ e)) := by
  have hpow : (0 : ℚ) < 2 ^ e := by positivity
  have hunits : (unitsAt (e * 2 ^ 52 + m) : ℚ) = m * 2 ^ e := by
    exact_mod_cast unitsAt_add e hm hlow
  by_cases hfirst : 2 ^ 52 < m ∨ e = 0
  · have hprev : (unitsAt j : ℚ) = (m - 1) * 2 ^ e := by
      have hcast : ((m - 1 : Nat) : ℚ) = m - 1 := Nat.cast_pred (by omega)
      rw [← hcast]
      exact_mod_cast unitsAt_prev hj hm hfirst
    rw [hunits, hprev]
    constructor
    · nlinarith [hs.ge]
    · intro hlt
      nlinarith
  · -- The first significand of its exponent: the grid below is finer, but the size is not below.
    have hprev : (unitsAt j : ℚ) < unitsAt (e * 2 ^ 52 + m) := by
      exact_mod_cast unitsAt_strictMono (by omega)
    have hsm : m * 2 ^ e ≤ s * 2 ^ e := by
      apply mul_le_mul_of_nonneg_right _ hpow.le
      calc (m : ℚ) ≤ 2 ^ 52 := by exact_mod_cast (by omega : m ≤ 2 ^ 52)
        _ ≤ s := hnormal (by omega)
    rw [hunits] at hprev ⊢
    constructor
    · linarith
    · intro _
      linarith

/-- The nearest significand at the right exponent is the nearest magnitude. -/
theorem isRounded_add (hs : Rounding.IsNearest m s) (hwidth : s < 2 ^ 53)
    (hnormal : 0 < e → 2 ^ 52 ≤ s) : IsRounded (e * 2 ^ 52 + m) (s * 2 ^ e) := by
  obtain ⟨hm, hlow⟩ := significand_bounds hs hwidth hnormal
  have habove := halfway_above hs hwidth hm hlow
  have hbelow : ∀ j, j + 1 = e * 2 ^ 52 + m → _ := fun j hj => halfway_below hs hnormal hm hlow hj
  -- The exponent field is even, so magnitude and significand are odd together.
  have hodd : (e * 2 ^ 52 + m) % 2 = 1 → m % 2 = 1 := by omega
  constructor
  · exact habove.1
  · intro j hj
    exact (hbelow j hj).1
  · intro h
    exact habove.2 (hs.lt_of_odd (hodd h)).1
  · intro h j hj
    exact (hbelow j hj).2 (hs.lt_of_odd (hodd h)).2

end significands

/-- Quotients are rounded to the nearest magnitude; from infinity on, to that of infinity. -/
theorem isRounded_magnitudeOfRatio (num : Nat) {den : Nat} (hden : 0 < den) :
    ∃ k, IsRounded k ((num : ℚ) / den * 2 ^ 1074) ∧
      magnitudeOfRatio num den = min infinity k := by
  unfold magnitudeOfRatio
  by_cases hnum : num = 0
  · refine ⟨0, ?_, by simp [hnum]⟩
    simpa [hnum] using isRounded_zero
  · rw [if_neg hnum]
    have hpos : 0 < num := Nat.pos_of_ne_zero hnum
    refine ⟨((Rounding.round 53 (-1074) num den).2 + 1074).toNat * 2 ^ 52 +
      (Rounding.round 53 (-1074) num den).1, ?_, rfl⟩
    have hleast : (-1074 : Int) ≤ (Rounding.round 53 (-1074) num den).2 := Rounding.least_le_round
    -- The exponent counted from the least one is the exponent field.
    obtain ⟨e, he⟩ := Int.eq_ofNat_of_zero_le (Int.add_nonneg_iff_neg_le.mpr hleast)
    have hnormal : 0 < e → (2 : ℚ) ^ (53 - 1) ≤
        num / den / 2 ^ (Rounding.round 53 (-1074) num den).2 := fun h =>
      Rounding.width_le_quotient hpos hden (by decide) (by omega)
    have hround := isRounded_add (Rounding.isNearest_round hden)
      (Rounding.quotient_lt_width hpos hden) hnormal
    have hunits : (num : ℚ) / den / 2 ^ (Rounding.round 53 (-1074) num den).2 * 2 ^ e =
        num / den * 2 ^ 1074 := by
      have hpow : (2 : ℚ) ^ e = 2 ^ (Rounding.round 53 (-1074) num den).2 * 2 ^ 1074 := by
        rw [← zpow_natCast, ← he, zpow_add₀ two_ne_zero]
        rfl
      rw [hpow, ← mul_assoc, div_mul_cancel₀ _ (zpow_ne_zero _ two_ne_zero)]
    rw [hunits] at hround
    rw [he, Int.toNat_natCast]
    exact hround

/-! ## §3 The nearest magnitude is unique -/

variable {j k : Nat} {u r : ℚ}

/-- At the point halfway between neighbours one of the two is odd, so no size is rounded to both. -/
theorem IsRounded.le_of_isRounded (hj : IsRounded j u) (hk : IsRounded k u) : j ≤ k := by
  by_contra hlt
  obtain ⟨i, rfl⟩ : ∃ i, j = i + 1 := ⟨j - 1, by omega⟩
  have hki : k ≤ i := by omega
  have hlow : (unitsAt k : ℚ) ≤ unitsAt i := by exact_mod_cast unitsAt_strictMono.monotone hki
  have hhigh : (unitsAt (k + 1) : ℚ) ≤ unitsAt (i + 1) := by
    exact_mod_cast unitsAt_strictMono.monotone (Nat.succ_le_succ hki)
  -- Halfway points are in order as well; only neighbours can share one, and then parity decides.
  rcases Nat.lt_or_eq_of_le hki with hgap | rfl
  · have hgap' : (unitsAt k : ℚ) < unitsAt i := by exact_mod_cast unitsAt_strictMono hgap
    linarith [hj.ge i rfl, hk.le]
  · rcases Nat.mod_two_eq_zero_or_one k with heven | hodd
    · linarith [hj.gt_of_odd (by omega) k rfl, hk.le]
    · linarith [hj.ge k rfl, hk.lt_of_odd hodd]

/-- The magnitude nearest to a size is unique. -/
theorem IsRounded.eq (hj : IsRounded j u) (hk : IsRounded k u) : j = k :=
  Nat.le_antisymm (hj.le_of_isRounded hk) (hk.le_of_isRounded hj)

/-- A size is rounded to a finite magnitude if it is below the point halfway to infinity. -/
theorem IsRounded.lt_infinity_iff (hk : IsRounded k u) :
    k < infinity ↔ 2 * u < unitsAt (infinity - 1) + unitsAt infinity := by
  have heven : infinity % 2 = 0 := rfl
  constructor
  · intro hlt
    rcases Nat.lt_or_eq_of_le (Nat.le_sub_one_of_lt hlt) with hgap | heq
    · have hlow : (unitsAt k : ℚ) < unitsAt (infinity - 1) := by
        exact_mod_cast unitsAt_strictMono hgap
      have hhigh : (unitsAt (k + 1) : ℚ) ≤ unitsAt infinity := by
        exact_mod_cast unitsAt_strictMono.monotone (Nat.succ_le_of_lt hlt)
      linarith [hk.le]
    · have hnext : k + 1 = infinity := by omega
      have hstrict := hk.lt_of_odd (by omega)
      rwa [hnext, heq] at hstrict
  · intro hlt
    by_contra hge
    have hpos : 0 < infinity := by decide
    obtain ⟨i, rfl⟩ : ∃ i, k = i + 1 := ⟨k - 1, by omega⟩
    have hlow : (unitsAt (infinity - 1) : ℚ) ≤ unitsAt i := by
      exact_mod_cast unitsAt_strictMono.monotone (by omega)
    have hhigh : (unitsAt infinity : ℚ) ≤ unitsAt (i + 1) := by
      exact_mod_cast unitsAt_strictMono.monotone (by omega)
    linarith [hk.ge i rfl]

theorem cast_powers {a b c n : Nat} (h : 2 * (2 ^ a * 2 ^ c) = n + 2 * (2 ^ b * 2 ^ c)) :
    2 * (((2 : ℚ) ^ a - 2 ^ b) * 2 ^ c) = n := by
  have hcast : 2 * ((2 : ℚ) ^ a * 2 ^ c) = n + 2 * (2 ^ b * 2 ^ c) := by exact_mod_cast h
  linarith

/-- The point halfway between the largest finite magnitude and that of infinity. -/
theorem limit_units :
    2 * (((2 : ℚ) ^ 1024 - 2 ^ 970) * 2 ^ 1074) = unitsAt (infinity - 1) + unitsAt infinity := by
  rw [← Nat.cast_add]
  exact cast_powers (by decide +kernel)

theorem lt_limit_iff (r : ℚ) : r < 2 ^ 1024 - 2 ^ 970 ↔
    2 * (r * 2 ^ 1074) < unitsAt (infinity - 1) + unitsAt infinity := by
  have hpow : (0 : ℚ) < 2 * 2 ^ 1074 := by positivity
  rw [← limit_units, mul_left_comm, mul_left_comm 2 (_ - _), mul_lt_mul_iff_left₀ hpow]

/-! ## §4 The nearest double -/

/-- The size of a finite double. -/
def size (x : Binary64) : ℚ := x.units / 2 ^ 1074

/-- The finite double nearest to a number of given sign and size. Between two that are equally near
the even one is meant. -/
structure IsNearest (x : Binary64) (negative : Bool) (r : ℚ) : Prop where
  sign : x.negative = negative
  finite : x.magnitude < infinity
  nearest : ∀ y : Binary64, y.magnitude < infinity → |x.size - r| ≤ |y.size - r|
  even : ∀ y : Binary64, y.magnitude < infinity → y.size ≠ x.size →
    |y.size - r| = |x.size - r| → x.magnitude % 2 = 0

theorem magnitude_ofMagnitude (negative : Bool) {k : Nat} (hk : k < infinity) :
    (ofMagnitude negative k).magnitude = k := by
  have hinf : infinity < 2 ^ 63 := by decide
  unfold magnitude ofMagnitude signBit
  cases negative <;> simp only [UInt64.toNat_ofNat', if_true, if_false, Bool.false_eq_true] <;>
    omega

theorem negative_ofMagnitude (negative : Bool) {k : Nat} (hk : k < infinity) :
    (ofMagnitude negative k).negative = negative := by
  have hinf : infinity < 2 ^ 63 := by decide
  unfold Binary64.negative ofMagnitude signBit
  cases negative <;> simp only [UInt64.toNat_ofNat', if_true, if_false, Bool.false_eq_true,
    decide_eq_true_eq, decide_eq_false_iff_not] <;> omega

/-- A double is its sign and its magnitude. -/
theorem ext_magnitude {x y : Binary64} (hsign : x.negative = y.negative)
    (hmagnitude : x.magnitude = y.magnitude) : x = y := by
  have hx := x.bits.toNat_lt
  have hy := y.bits.toNat_lt
  unfold Binary64.negative signBit at hsign
  unfold magnitude signBit at hmagnitude
  rw [decide_eq_decide] at hsign
  have hbits : x.bits.toNat = y.bits.toNat := by omega
  cases x
  cases y
  congr 1
  exact UInt64.toNat_inj.mp hbits

theorem size_eq (x : Binary64) : x.size = unitsAt x.magnitude / 2 ^ 1074 := by
  rw [size, units_eq_unitsAt]

theorem size_lt_size_iff {x y : Binary64} : x.size < y.size ↔ x.magnitude < y.magnitude := by
  have hpow : (0 : ℚ) < 2 ^ 1074 := by positivity
  rw [size_eq, size_eq, div_lt_div_iff_of_pos_right hpow, Nat.cast_lt,
    unitsAt_strictMono.lt_iff_lt]

theorem size_eq_size_iff {x y : Binary64} : x.size = y.size ↔ x.magnitude = y.magnitude := by
  have hpow : (2 : ℚ) ^ 1074 ≠ 0 := by positivity
  rw [size_eq, size_eq, div_left_inj' hpow, Nat.cast_inj, unitsAt_strictMono.injective.eq_iff]

/-- No other magnitude is nearer to a size than the one it is rounded to, and where that one is odd
none is as near. -/
theorem IsRounded.distance (hk : IsRounded k u) (j : Nat) :
    |(unitsAt k : ℚ) - u| ≤ |(unitsAt j : ℚ) - u| ∧
      (j ≠ k → k % 2 = 1 → |(unitsAt k : ℚ) - u| < |(unitsAt j : ℚ) - u|) := by
  rcases Nat.lt_trichotomy j k with hlt | rfl | hgt
  · obtain ⟨i, rfl⟩ : ∃ i, k = i + 1 := ⟨k - 1, by omega⟩
    have hji : (unitsAt j : ℚ) ≤ unitsAt i := by
      exact_mod_cast unitsAt_strictMono.monotone (Nat.le_of_lt_succ hlt)
    have hjk : (unitsAt j : ℚ) < unitsAt (i + 1) := by exact_mod_cast unitsAt_strictMono hlt
    have habs : u - unitsAt j ≤ |(unitsAt j : ℚ) - u| := by
      rw [abs_sub_comm]
      exact le_abs_self _
    constructor
    · have hge := hk.ge i rfl
      exact (abs_le.mpr ⟨by linarith, by linarith⟩).trans habs
    · intro _ hodd
      have hgt := hk.gt_of_odd hodd i rfl
      exact (abs_lt.mpr ⟨by linarith, by linarith⟩).trans_le habs
  · exact ⟨le_rfl, fun h => absurd rfl h⟩
  · have hnext : (unitsAt (k + 1) : ℚ) ≤ unitsAt j := by
      exact_mod_cast unitsAt_strictMono.monotone (Nat.succ_le_of_lt hgt)
    have hkj : (unitsAt k : ℚ) < unitsAt j := by exact_mod_cast unitsAt_strictMono hgt
    have habs : unitsAt j - u ≤ |(unitsAt j : ℚ) - u| := le_abs_self _
    constructor
    · have hle := hk.le
      exact (abs_le.mpr ⟨by linarith, by linarith⟩).trans habs
    · intro _ hodd
      have hlt := hk.lt_of_odd hodd
      exact (abs_lt.mpr ⟨by linarith, by linarith⟩).trans_le habs

/-- Distances count the same in units. -/
theorem abs_size_sub (x : Binary64) (r : ℚ) :
    |x.size - r| = |(unitsAt x.magnitude : ℚ) - r * 2 ^ 1074| / 2 ^ 1074 := by
  have hpow : (0 : ℚ) < 2 ^ 1074 := by positivity
  rw [eq_div_iff hpow.ne', ← abs_of_pos hpow, ← abs_mul, sub_mul, size_eq, abs_of_pos hpow,
    div_mul_cancel₀ _ hpow.ne']

/-- The double of the magnitude that a size is rounded to is the nearest one. -/
theorem IsRounded.isNearest (hk : IsRounded k (r * 2 ^ 1074)) (hfinite : k < infinity)
    (negative : Bool) : IsNearest (ofMagnitude negative k) negative r := by
  have hpow : (0 : ℚ) < 2 ^ 1074 := by positivity
  have hmag := magnitude_ofMagnitude negative hfinite
  constructor
  · exact negative_ofMagnitude negative hfinite
  · rwa [hmag]
  · intro y _
    rw [abs_size_sub, abs_size_sub, hmag]
    exact div_le_div_of_nonneg_right (hk.distance y.magnitude).1 hpow.le
  · intro y _ hne heq
    rw [hmag]
    by_contra hodd
    rw [Ne, size_eq_size_iff, hmag] at hne
    have hlt := (hk.distance y.magnitude).2 hne (by omega)
    rw [abs_size_sub, abs_size_sub, hmag, div_left_inj' hpow.ne'] at heq
    exact hlt.ne' heq

variable {x y : Binary64} {negative : Bool}

/-- Were two doubles equally near, both would be even, and one between them would be nearer. -/
theorem IsNearest.not_lt (hx : IsNearest x negative r) (hy : IsNearest y negative r) :
    ¬ x.magnitude < y.magnitude := by
  intro hlt
  have hxy : x.size < y.size := size_lt_size_iff.mpr hlt
  have heq : |x.size - r| = |y.size - r| :=
    le_antisymm (hx.nearest y hy.finite) (hy.nearest x hx.finite)
  have hxEven := hx.even y hy.finite hxy.ne' heq.symm
  have hyEven := hy.even x hx.finite hxy.ne heq
  -- The magnitude between the two.
  have hfinite : x.magnitude + 1 < infinity := by
    have := hy.finite
    omega
  have hbetween := magnitude_ofMagnitude false hfinite
  have hxc : x.size < (ofMagnitude false (x.magnitude + 1)).size :=
    size_lt_size_iff.mpr (by omega)
  have hcy : (ofMagnitude false (x.magnitude + 1)).size < y.size :=
    size_lt_size_iff.mpr (by omega)
  have hmid : x.size - r = -(y.size - r) := by
    rcases abs_eq_abs.mp heq with hsame | hopposite
    · linarith
    · exact hopposite
  have hnear := hx.nearest _ (hbetween.trans_lt hfinite)
  have hcloser : |(ofMagnitude false (x.magnitude + 1)).size - r| < y.size - r :=
    abs_lt.mpr ⟨by linarith, by linarith⟩
  linarith [le_abs_self (y.size - r)]

/-- The double nearest to a number is unique. -/
theorem IsNearest.eq (hx : IsNearest x negative r) (hy : IsNearest y negative r) : x = y :=
  ext_magnitude (hx.sign.trans hy.sign.symm) <|
    Nat.le_antisymm (Nat.le_of_not_lt (hy.not_lt hx)) (Nat.le_of_not_lt (hx.not_lt hy))

end JsonTree.Binary64
