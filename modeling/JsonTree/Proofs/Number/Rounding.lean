import JsonTree.Rounding
import Mathlib.Algebra.Order.Field.Power
import Mathlib.Data.Nat.Log
import Mathlib.Data.Rat.Cast.Order
import Mathlib.Tactic.FieldSimp
import Mathlib.Tactic.Linarith
import Mathlib.Tactic.Positivity
import Mathlib.Tactic.Ring

/-!
# What rounding a quotient gives

The rounded significand is a natural number nearest to the scaled quotient, and the exponent is the
one at which the quotient just fits. Quotients are taken as rational numbers, so that nothing here
depends on how they are written.

## Main statements

- `Rounding.isNearest_nearest`: the integer quotient is rounded to the nearest.
- `Rounding.pow_log2_le`, `Rounding.lt_pow_log2`: the order of magnitude of a quotient.
- `Rounding.isNearest_round`: the significand that `round` gives, at its exponent.
-/

namespace JsonTree.Rounding

/-! ## §1 Nearest natural numbers -/

/-- A natural number that is nearest to a rational one, and even if it lies a half away. -/
structure IsNearest (m : Nat) (r : ℚ) : Prop where
  le : 2 * r ≤ 2 * m + 1
  ge : 2 * (m : ℚ) ≤ 2 * r + 1
  lt_of_odd : m % 2 = 1 → 2 * r < 2 * m + 1 ∧ 2 * (m : ℚ) < 2 * r + 1

/-- Rounding down is right below the half, and at the half from an even number. -/
theorem isNearest_floor {m : Nat} {t : ℚ} (hnonneg : 0 ≤ t) (hhalf : 2 * t ≤ 1)
    (heven : m % 2 = 1 → 2 * t < 1) : IsNearest m (m + t) := by
  constructor
  · linarith
  · linarith
  · intro hodd
    have hlt := heven hodd
    constructor <;> linarith

/-- Rounding up is right above the half, and at the half from an odd number. -/
theorem isNearest_succ {m : Nat} {t : ℚ} (hone : t ≤ 1) (hhalf : 1 ≤ 2 * t)
    (hodd : m % 2 = 0 → 1 < 2 * t) : IsNearest (m + 1) (m + t) := by
  have hcast : ((m + 1 : Nat) : ℚ) = m + 1 := Nat.cast_succ m
  constructor
  · rw [hcast]
    linarith
  · rw [hcast]
    linarith
  · intro h
    have hlt := hodd (by omega)
    rw [hcast]
    constructor <;> linarith

/-- The integer quotient is rounded to the nearest natural number. -/
theorem isNearest_nearest (num : Nat) {den : Nat} (hden : 0 < den) :
    IsNearest (nearest num den) (num / den) := by
  have hpos : (0 : ℚ) < den := by exact_mod_cast hden
  -- What the rest of the division adds to the whole part.
  have hsplit : (num : ℚ) / den = (num / den : Nat) + ((num % den : Nat) : ℚ) / den := by
    have hdiv : ((den * (num / den) + num % den : Nat) : ℚ) = num := by
      exact_mod_cast Nat.div_add_mod num den
    rw [← hdiv]
    push_cast
    field_simp
  have hrest : 0 ≤ ((num % den : Nat) : ℚ) / den := by positivity
  have hone : ((num % den : Nat) : ℚ) / den ≤ 1 := by
    rw [div_le_one hpos]
    exact_mod_cast (Nat.mod_lt num hden).le
  rw [hsplit]
  unfold nearest
  -- Below, at and above the halfway point; at it the even neighbour is chosen.
  rcases Nat.lt_trichotomy (2 * (num % den)) den with hlt | heq | hgt
  · have hhalf : 2 * (((num % den : Nat) : ℚ) / den) < 1 := by
      rw [← mul_div_assoc, div_lt_one hpos]
      exact_mod_cast hlt
    simp only [hlt, if_true]
    exact isNearest_floor hrest hhalf.le fun _ => hhalf
  · have hhalf : 2 * (((num % den : Nat) : ℚ) / den) = 1 := by
      rw [← mul_div_assoc, div_eq_one_iff_eq hpos.ne']
      exact_mod_cast heq
    simp only [heq, lt_irrefl, if_false]
    rcases Nat.mod_two_eq_zero_or_one (num / den) with heven | hodd
    · rw [heven, Nat.add_zero]
      exact isNearest_floor hrest hhalf.le fun h => by omega
    · rw [hodd]
      exact isNearest_succ hone hhalf.ge fun h => by omega
  · have hhalf : 1 < 2 * (((num % den : Nat) : ℚ) / den) := by
      rw [← mul_div_assoc, one_lt_div hpos]
      exact_mod_cast hgt
    simp only [Nat.lt_asymm hgt, hgt, if_true, if_false]
    exact isNearest_succ hone hhalf.le fun _ => hhalf

/-! ## §2 The order of magnitude -/

/-- A power with an integer exponent, as the quotient of two natural ones. -/
theorem zpow_eq_div (b : ℚ) (q : Int) : b ^ q = b ^ q.toNat / b ^ (-q).toNat := by
  rcases Int.le_total 0 q with hq | hq
  · obtain ⟨n, rfl⟩ := Int.eq_ofNat_of_zero_le hq
    simp
  · obtain ⟨n, hn⟩ := Int.eq_ofNat_of_zero_le (Int.neg_nonneg.mpr hq)
    obtain rfl : q = -(n : Int) := by omega
    simp

/-- Moving the binary point of a quotient by shifting its numerator or its denominator. -/
theorem scaled_quotient (num den : Nat) (q : Int) :
    ((num <<< (-q).toNat : Nat) : ℚ) / ((den <<< q.toNat : Nat) : ℚ) =
      num / den / (2 : ℚ) ^ q := by
  rw [zpow_eq_div, Nat.shiftLeft_eq, Nat.shiftLeft_eq]
  push_cast
  field_simp

theorem scaled_lt_iff (num : Nat) {den : Nat} (hden : 0 < den) (q : Int) :
    num <<< (-q).toNat < den <<< q.toNat ↔ (num : ℚ) / den < (2 : ℚ) ^ q := by
  have hpos : (0 : ℚ) < ((den <<< q.toNat : Nat) : ℚ) := by
    exact_mod_cast Nat.shiftLeft_pos_iff.mpr hden
  have hpow : (0 : ℚ) < 2 ^ q := zpow_pos two_pos q
  rw [← div_lt_one hpow, ← scaled_quotient, div_lt_one hpos]
  exact Nat.cast_lt.symm

/-- A natural number lies between two neighbouring powers of two. -/
theorem two_zpow_log2 {n : Nat} (hn : 0 < n) :
    (2 : ℚ) ^ (n.log2 : Int) ≤ n ∧ (n : ℚ) < 2 ^ ((n.log2 : Int) + 1) := by
  constructor
  · rw [zpow_natCast]
    exact_mod_cast Nat.log2_self_le hn.ne'
  · have hlt : (n : ℚ) < 2 ^ (n.log2 + 1) := by exact_mod_cast Nat.lt_log2_self
    exact_mod_cast hlt

variable {num den : Nat}

/-- The binary orders of numerator and denominator give that of the quotient up to one. -/
theorem quotient_between (hnum : 0 < num) (hden : 0 < den) :
    (2 : ℚ) ^ ((num.log2 : Int) - den.log2 - 1) ≤ num / den ∧
      (num : ℚ) / den < 2 ^ ((num.log2 : Int) - den.log2 + 1) := by
  have hpos : (0 : ℚ) < den := by exact_mod_cast hden
  obtain ⟨hnumLe, hnumLt⟩ := two_zpow_log2 hnum
  obtain ⟨hdenLe, hdenLt⟩ := two_zpow_log2 hden
  constructor
  · rw [le_div_iff₀ hpos]
    calc (2 : ℚ) ^ ((num.log2 : Int) - den.log2 - 1) * den
        ≤ 2 ^ ((num.log2 : Int) - den.log2 - 1) * 2 ^ ((den.log2 : Int) + 1) := by gcongr
      _ = 2 ^ (num.log2 : Int) := by
          rw [← zpow_add₀ two_ne_zero]
          congr 1
          ring
      _ ≤ num := hnumLe
  · rw [div_lt_iff₀ hpos]
    calc (num : ℚ) < 2 ^ ((num.log2 : Int) + 1) := hnumLt
      _ = 2 ^ ((num.log2 : Int) - den.log2 + 1) * 2 ^ (den.log2 : Int) := by
          rw [← zpow_add₀ two_ne_zero]
          congr 1
          ring
      _ ≤ 2 ^ ((num.log2 : Int) - den.log2 + 1) * den := by gcongr

theorem pow_log2_le (hnum : 0 < num) (hden : 0 < den) :
    (2 : ℚ) ^ log2 num den ≤ num / den := by
  simp only [log2]
  split
  · exact (quotient_between hnum hden).1
  · rename_i h
    rw [scaled_lt_iff num hden, not_lt] at h
    exact h

theorem lt_pow_log2 (hnum : 0 < num) (hden : 0 < den) :
    (num : ℚ) / den < 2 ^ (log2 num den + 1) := by
  simp only [log2]
  split
  · rename_i h
    rw [scaled_lt_iff num hden] at h
    rwa [sub_add_cancel]
  · exact (quotient_between hnum hden).2

/-! ## §3 The significand -/

variable {width : Nat} {least : Int}

theorem least_le_round : least ≤ (round width least num den).2 := le_max_right _ _

/-- The significand is nearest to the quotient in units of its exponent. -/
theorem isNearest_round (hden : 0 < den) :
    IsNearest (round width least num den).1
      (num / den / (2 : ℚ) ^ (round width least num den).2) := by
  rw [← scaled_quotient]
  exact isNearest_nearest _ (Nat.shiftLeft_pos_iff.mpr hden)

/-- At the exponent of the rounded quotient, the quotient has at most the given width. -/
theorem quotient_lt_width (hnum : 0 < num) (hden : 0 < den) :
    (num : ℚ) / den / 2 ^ (round width least num den).2 < 2 ^ width := by
  have hle : log2 num den + 1 ≤ width + (round width least num den).2 := by
    have : log2 num den - (width - 1) ≤ (round width least num den).2 := le_max_left _ _
    omega
  rw [div_lt_iff₀ (zpow_pos two_pos _)]
  calc (num : ℚ) / den < 2 ^ (log2 num den + 1) := lt_pow_log2 hnum hden
    _ ≤ 2 ^ ((width : Int) + (round width least num den).2) := zpow_le_zpow_right₀ one_le_two hle
    _ = 2 ^ width * 2 ^ (round width least num den).2 := by
        rw [zpow_add₀ two_ne_zero, zpow_natCast]

/-- Above the least exponent the quotient fills the given width. -/
theorem width_le_quotient (hnum : 0 < num) (hden : 0 < den) (hwidth : 0 < width)
    (hleast : least < (round width least num den).2) :
    (2 : ℚ) ^ (width - 1) ≤ num / den / 2 ^ (round width least num den).2 := by
  have hq : (round width least num den).2 = log2 num den - (width - 1) := by
    have hmax : (round width least num den).2 = max (log2 num den - (width - 1)) least := rfl
    omega
  rw [le_div_iff₀ (zpow_pos two_pos _), ← zpow_natCast, ← zpow_add₀ two_ne_zero]
  have hexp : ((width - 1 : Nat) : Int) + (round width least num den).2 = log2 num den := by omega
  rw [hexp]
  exact pow_log2_le hnum hden

end JsonTree.Rounding
