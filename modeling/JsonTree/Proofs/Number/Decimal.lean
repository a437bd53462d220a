import JsonTree.Proofs.Number.Nearest

/-!
# Decimals as doubles

A decimal is rounded once, whichever way it is computed: from its exact value, or by multiplying or
dividing two doubles that are exact. All ways agree because the nearest magnitude is unique.

## Main statements

- `Binary64.exists_isNearest`: there is a nearest double for every decimal below the limit.
- `Binary64.ofDecimal_eq_some_iff`: decimals below the limit are read as the nearest double, and no
  others are read.
- `Binary64.units_ofInt`: natural numbers with few significant bits are exact.
- `Binary64.mul_ten_pow`, `Binary64.div_ten_pow`: one operation on exact doubles is enough.
-/

namespace JsonTree.Binary64

/-! ## §1 Decimals -/

/-- A decimal as a quotient of natural numbers. -/
theorem decimal_quotient (digits : Nat) (exponent : Int) :
    (((digits * 10 ^ exponent.toNat : Nat) : ℚ)) / ((10 ^ (-exponent).toNat : Nat) : ℚ) =
      digits * 10 ^ exponent := by
  rw [Rounding.zpow_eq_div]
  push_cast
  rw [mul_div_assoc]

/-- A decimal with at least 309 places before the point is beyond the limit. -/
theorem limit_le_decimal {digits : Nat} (hdigits : 0 < digits) {exponent : Int}
    (hexponent : 309 ≤ exponent) : (2 : ℚ) ^ 1024 - 2 ^ 970 ≤ digits * 10 ^ exponent := by
  have hpowers : (2 : ℚ) ^ 1024 ≤ 10 ^ 309 := by
    have hnat : (2 : Nat) ^ 1024 ≤ 10 ^ 309 := by decide +kernel
    exact_mod_cast hnat
  have hone : (1 : ℚ) ≤ digits := by exact_mod_cast hdigits
  have hpos : (0 : ℚ) ≤ 2 ^ 970 := by positivity
  calc (2 : ℚ) ^ 1024 - 2 ^ 970 ≤ 2 ^ 1024 := sub_le_self _ hpos
    _ ≤ 10 ^ 309 := hpowers
    _ = 10 ^ (309 : Int) := (zpow_ofNat 10 309).symm
    _ ≤ 10 ^ exponent := zpow_le_zpow_right₀ (by decide) hexponent
    _ = 1 * 10 ^ exponent := (one_mul _).symm
    _ ≤ digits * 10 ^ exponent := by gcongr

/-- A decimal whose digits end far behind the point is less than half a unit. -/
theorem decimal_le_half {digits : Nat} (hdigits : 0 < digits) {exponent : Int}
    (hexponent : (digits.log2 : Int) + 1 + 3 * exponent < -1075) :
    2 * ((digits : ℚ) * 10 ^ exponent * 2 ^ 1074) ≤ 1 := by
  obtain ⟨n, hn⟩ : ∃ n : Nat, exponent = -n := ⟨(-exponent).toNat, by omega⟩
  have hten : (10 : ℚ) ^ exponent ≤ 2 ^ (3 * exponent) := by
    rw [zpow_mul, hn, zpow_neg, zpow_neg, zpow_natCast, zpow_natCast]
    gcongr
    norm_num
  calc 2 * ((digits : ℚ) * 10 ^ exponent * 2 ^ 1074)
      ≤ 2 * (2 ^ ((digits.log2 : Int) + 1) * 2 ^ (3 * exponent) * 2 ^ 1074) := by
        gcongr
        exact (Rounding.two_zpow_log2 hdigits).2.le
    _ = 2 ^ ((digits.log2 : Int) + 1 + 3 * exponent + 1075) := by
        rw [zpow_add₀ two_ne_zero _ 1075, zpow_add₀ two_ne_zero _ (3 * exponent),
          show (1075 : Int) = 1 + 1074 from rfl, zpow_add₀ two_ne_zero 1 1074, zpow_one,
          zpow_ofNat]
        generalize (2 : ℚ) ^ 1074 = units
        ring
    _ ≤ 2 ^ (0 : Int) := zpow_le_zpow_right₀ one_le_two (by omega)
    _ = 1 := zpow_zero 2

theorem isRounded_of_le_half {u : ℚ} (hhalf : 2 * u ≤ 1) : IsRounded 0 u := by
  have hone : ((unitsAt 1 : Nat) : ℚ) = 1 := by
    exact_mod_cast (rfl : unitsAt 1 = 1)
  constructor
  · rw [unitsAt_zero, hone]
    push_cast
    linarith
  · intro j hj
    omega
  · intro h
    omega
  · intro h
    omega

/-- Decimals are rounded to the nearest magnitude; from infinity on, to that of infinity. -/
theorem isRounded_magnitudeOfDecimal (digits : Nat) (exponent : Int) :
    ∃ k, IsRounded k ((digits : ℚ) * 10 ^ exponent * 2 ^ 1074) ∧
      magnitudeOfDecimal digits exponent = min infinity k := by
  have hpow : 0 < 10 ^ (-exponent).toNat := Nat.pow_pos (by decide)
  obtain ⟨k, hk, hratio⟩ := isRounded_magnitudeOfRatio (digits * 10 ^ exponent.toNat) hpow
  rw [decimal_quotient] at hk
  refine ⟨k, hk, ?_⟩
  unfold magnitudeOfDecimal
  by_cases hdigits : digits = 0
  · have hzero : k = 0 := by
      apply hk.eq
      simpa [hdigits] using isRounded_zero
    simp [hdigits, hzero]
  · have hpos : 0 < digits := Nat.pos_of_ne_zero hdigits
    rw [if_neg hdigits]
    -- The two shortcuts give what rounding the quotient would have given.
    by_cases hlarge : 309 ≤ exponent
    · have hinf : ¬ k < infinity := by
        rw [hk.lt_infinity_iff, ← lt_limit_iff, not_lt]
        exact limit_le_decimal hpos hlarge
      rw [if_pos hlarge]
      omega
    · rw [if_neg hlarge]
      by_cases hsmall : (digits.log2 : Int) + 1 + 3 * exponent < -1075
      · have hzero : k = 0 := by
          apply hk.eq
          exact isRounded_of_le_half (decimal_le_half hpos hsmall)
        rw [if_pos hsmall, hzero]
        rfl
      · rw [if_neg hsmall]
        exact hratio

/-- There is a nearest double for every decimal below the limit. -/
theorem exists_isNearest (negative : Bool) {digits : Nat} {exponent : Int}
    (h : (digits : ℚ) * 10 ^ exponent < 2 ^ 1024 - 2 ^ 970) :
    ∃ x, IsNearest x negative (digits * 10 ^ exponent) := by
  obtain ⟨k, hk, -⟩ := isRounded_magnitudeOfDecimal digits exponent
  have hfinite : k < infinity := by
    rwa [hk.lt_infinity_iff, ← lt_limit_iff]
  exact ⟨_, hk.isNearest hfinite negative⟩

/-- Decimals below the limit are read as the nearest double, and no others are read. -/
theorem ofDecimal_eq_some_iff (negative : Bool) (digits : Nat) (exponent : Int) (x : Binary64) :
    ofDecimal negative digits exponent = some x ↔
      (digits : ℚ) * 10 ^ exponent < 2 ^ 1024 - 2 ^ 970 ∧
        IsNearest x negative (digits * 10 ^ exponent) := by
  obtain ⟨k, hk, hmag⟩ := isRounded_magnitudeOfDecimal digits exponent
  have hlimit : k < infinity ↔ (digits : ℚ) * 10 ^ exponent < 2 ^ 1024 - 2 ^ 970 := by
    rw [hk.lt_infinity_iff, ← lt_limit_iff]
  unfold ofDecimal
  rw [hmag, ← hlimit]
  by_cases hfinite : k < infinity
  · have hmin : min infinity k = k := Nat.min_eq_right hfinite.le
    have hnear := hk.isNearest hfinite negative
    simp only [hmin, hfinite, if_true, Option.some.injEq, true_and]
    constructor
    · rintro rfl
      exact hnear
    · exact fun hx => hnear.eq hx
  · have hmin : min infinity k = infinity := Nat.min_eq_left (Nat.le_of_not_lt hfinite)
    simp [hmin, hfinite]

/-! ## §2 Exact doubles -/

/-- A natural number with few significant bits is the size of a finite magnitude. -/
theorem exists_unitsAt {c j : Nat} (hc : c < 2 ^ 53) (hj : j ≤ 900) :
    ∃ k, k < infinity ∧ unitsAt k = c * 2 ^ j * 2 ^ 1074 := by
  rcases Nat.eq_zero_or_pos c with rfl | hpos
  · exact ⟨0, by decide, by rw [Nat.zero_mul, Nat.zero_mul, unitsAt_zero]⟩
  · have hlog : c.log2 < 53 := (Nat.log2_lt hpos.ne').mpr hc
    have hsplit : 2 ^ 52 = 2 ^ c.log2 * 2 ^ (52 - c.log2) := by
      rw [← Nat.pow_add]
      congr 1
      omega
    have hlow : 2 ^ 52 ≤ c * 2 ^ (52 - c.log2) := by
      rw [hsplit]
      exact Nat.mul_le_mul_right _ (Nat.log2_self_le hpos.ne')
    have hhigh : c * 2 ^ (52 - c.log2) < 2 ^ 53 := by
      have hnext : 2 ^ 53 = 2 ^ (c.log2 + 1) * 2 ^ (52 - c.log2) := by
        rw [← Nat.pow_add]
        congr 1
        omega
      rw [hnext]
      exact Nat.mul_lt_mul_of_pos_right Nat.lt_log2_self (Nat.two_pow_pos _)
    refine ⟨(1022 + c.log2 + j) * 2 ^ 52 + c * 2 ^ (52 - c.log2), ?_, ?_⟩
    · have hinf : infinity = 2047 * 2 ^ 52 := by decide
      omega
    · rw [unitsAt_add _ hhigh.le (Or.inl hlow), Nat.mul_assoc, Nat.mul_assoc, ← Nat.pow_add,
        ← Nat.pow_add]
      congr 2
      omega

/-- A natural number with few significant bits is exact as a double. -/
theorem units_ofInt {c j : Nat} (hc : c < 2 ^ 53) (hj : j ≤ 900) :
    (ofInt (c * 2 ^ j : Nat)).units = c * 2 ^ j * 2 ^ 1074 ∧
      (ofInt (c * 2 ^ j : Nat)).negative = false := by
  -- A size that some magnitude has exactly is rounded to that magnitude.
  obtain ⟨k, hfinite, hunits⟩ := exists_unitsAt hc hj
  obtain ⟨k', hk', hratio⟩ := isRounded_magnitudeOfRatio (c * 2 ^ j) Nat.one_pos
  have hsame : k' = k := by
    apply hk'.eq
    have hcast : ((c * 2 ^ j : Nat) : ℚ) / (1 : Nat) * 2 ^ 1074 = (unitsAt k : Nat) := by
      rw [hunits, Nat.cast_one, div_one, Nat.cast_mul _ (2 ^ 1074), Nat.cast_pow, Nat.cast_ofNat]
    rw [hcast]
    exact isRounded_unitsAt k
  have hdouble : ofInt (c * 2 ^ j : Nat) = ofMagnitude false k := by
    unfold ofInt
    rw [Int.natAbs_natCast, hratio, hsame, Nat.min_eq_right hfinite.le]
    congr 1
  rw [hdouble, units_eq_unitsAt, magnitude_ofMagnitude false hfinite, hunits]
  exact ⟨rfl, negative_ofMagnitude false hfinite⟩

/-! ## §3 One rounded operation -/

/-- Quotients that are equal to a decimal are rounded as it is. -/
theorem magnitudeOfRatio_eq {num den digits : Nat} {exponent : Int} (hden : 0 < den)
    (h : (num : ℚ) / den = digits * 10 ^ exponent) :
    magnitudeOfRatio num den = magnitudeOfDecimal digits exponent := by
  obtain ⟨k, hk, hratio⟩ := isRounded_magnitudeOfRatio num hden
  obtain ⟨k', hk', hdecimal⟩ := isRounded_magnitudeOfDecimal digits exponent
  rw [h] at hk
  rw [hratio, hdecimal, hk.eq hk']

/-- The largest significand of a short decimal is exact too, as a power of two. -/
theorem units_short {v : Nat} (hv : v ≤ 2 ^ 53) :
    (ofInt v).units = v * 2 ^ 1074 ∧ (ofInt v).negative = false := by
  rcases Nat.lt_or_eq_of_le hv with hlt | rfl
  · have hexact := units_ofInt hlt (Nat.zero_le 900)
    rwa [Nat.pow_zero, Nat.mul_one] at hexact
  · have hexact := units_ofInt (show 1 < 2 ^ 53 by decide) (show 53 ≤ 900 by decide)
    rwa [Nat.one_mul] at hexact

/-- The odd part of a short power of ten has few bits. -/
theorem units_ten_pow {k : Nat} (hk : k ≤ 22) :
    (ofInt (10 ^ k)).units = 10 ^ k * 2 ^ 1074 ∧ (ofInt (10 ^ k)).negative = false := by
  have hfive : 5 ^ k < 2 ^ 53 := calc
    5 ^ k ≤ 5 ^ 22 := Nat.pow_le_pow_right (by decide) hk
    _ < 2 ^ 53 := by decide
  have hten : (10 : Nat) ^ k = 5 ^ k * 2 ^ k := by rw [← Nat.mul_pow]
  have hexact := units_ofInt hfive (show k ≤ 900 by omega)
  rwa [← hten, Nat.cast_pow, Nat.cast_ofNat] at hexact

variable {v k : Nat}

/-- The product of an exact double and an exact power of ten is rounded like the decimal. -/
theorem mul_ten_pow (hv : v ≤ 2 ^ 53) (hk : k ≤ 22) :
    (ofInt v).mul (ofInt (10 ^ k)) = ofMagnitude false (magnitudeOfDecimal v k) := by
  obtain ⟨hvUnits, hvSign⟩ := units_short hv
  obtain ⟨hkUnits, hkSign⟩ := units_ten_pow hk
  -- Any common unit cancels, and with it the huge power of two.
  have hratio : ∀ unit, 0 < unit →
      magnitudeOfRatio (v * unit * (10 ^ k * unit)) (unit * unit) = magnitudeOfDecimal v k := by
    intro unit hunit
    apply magnitudeOfRatio_eq (Nat.mul_pos hunit hunit)
    have hne : (unit : ℚ) ≠ 0 := by exact_mod_cast hunit.ne'
    rw [zpow_natCast]
    push_cast
    field_simp
  unfold mul
  rw [hvUnits, hkUnits, hvSign, hkSign, Nat.one_shiftLeft, hratio _ (Nat.two_pow_pos 1074),
    bne_self_eq_false]

/-- The quotient of an exact double by an exact power of ten is rounded like the decimal. -/
theorem div_ten_pow (hv : v ≤ 2 ^ 53) (hk : k ≤ 22) :
    (ofInt v).div (ofInt (10 ^ k)) = ofMagnitude false (magnitudeOfDecimal v (-k)) := by
  obtain ⟨hvUnits, hvSign⟩ := units_short hv
  obtain ⟨hkUnits, hkSign⟩ := units_ten_pow hk
  -- Any common unit cancels here too.
  have hratio : ∀ unit, 0 < unit →
      magnitudeOfRatio (v * unit) (10 ^ k * unit) = magnitudeOfDecimal v (-k) := by
    intro unit hunit
    apply magnitudeOfRatio_eq (Nat.mul_pos (Nat.pow_pos (by decide)) hunit)
    have hne : (unit : ℚ) ≠ 0 := by exact_mod_cast hunit.ne'
    rw [zpow_neg, zpow_natCast]
    push_cast
    field_simp
  unfold div
  rw [hvUnits, hkUnits, hvSign, hkSign, hratio _ (Nat.two_pow_pos 1074), bne_self_eq_false]

/-- Short decimals are far below the limit. -/
theorem magnitudeOfDecimal_lt_infinity (hv : v ≤ 2 ^ 53) {exponent : Int} (hexp : exponent ≤ 22) :
    magnitudeOfDecimal v exponent < infinity := by
  obtain ⟨k, hk, hmag⟩ := isRounded_magnitudeOfDecimal v exponent
  have hpowers : (2 : ℚ) ^ 53 * 10 ^ 22 < 2 ^ 1024 - 2 ^ 970 := by
    have hnat : 2 ^ 53 * 10 ^ 22 + 2 ^ 970 < 2 ^ 1024 := by decide +kernel
    have hcast : (2 : ℚ) ^ 53 * 10 ^ 22 + 2 ^ 970 < 2 ^ 1024 := by exact_mod_cast hnat
    exact lt_sub_iff_add_lt.mpr hcast
  have hlt : (v : ℚ) * 10 ^ exponent < 2 ^ 1024 - 2 ^ 970 := by
    refine lt_of_le_of_lt ?_ hpowers
    have hvCast : (v : ℚ) ≤ 2 ^ 53 := by exact_mod_cast hv
    have hten : (10 : ℚ) ^ exponent ≤ 10 ^ 22 := by
      rw [← zpow_ofNat 10 22]
      exact zpow_le_zpow_right₀ (by decide) hexp
    gcongr
  have hfinite : k < infinity := hk.lt_infinity_iff.mpr ((lt_limit_iff _).mp hlt)
  omega

/-- The other sign at the same magnitude. -/
theorem neg_ofMagnitude {m : Nat} (hm : m < infinity) :
    (ofMagnitude false m).neg = ofMagnitude true m := by
  unfold neg
  rw [magnitude_ofMagnitude false hm, negative_ofMagnitude false hm]
  rfl

end JsonTree.Binary64
