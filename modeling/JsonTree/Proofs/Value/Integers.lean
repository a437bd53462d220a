import JsonTree.Shape.Encode
import JsonTree.Value.Access
import JsonTree.Proofs.Value.Equality
import Mathlib.Algebra.Group.Int.Defs

/-!
# Integers of every width

A number of any integer type is stored in one signed 64-bit word, is compared with numbers of any
other type, and is read back as any of them. What comes out is what the integers themselves say,
however widths and signs are mixed. Only storing wraps, and only unsigned numbers of `2 ^ 63` and
more.

## Main definitions

- `IntType.Holds`: the numbers of an integer type.
- `stored`: the integer that is kept of a number.

## Main statements

- `Value.asI64_ofInt`: what is kept of a number.
- `Value.asInt_i64`: an integer is read as a type exactly if the type holds it.
- `Value.integers_exact`: comparison, narrowing and encoding are exact.
-/

namespace JsonTree

/-! ## §1 Ranges -/

/-- A number of an integer type. -/
def IntType.Holds (t : IntType) (n : Int) : Prop := t.least ≤ n ∧ n ≤ t.greatest

instance (t : IntType) (n : Int) : Decidable (t.Holds n) := inferInstanceAs (Decidable (_ ∧ _))

/-- The integer that is kept of a number. -/
def stored (x : Int) : Int := if x < 2 ^ 63 then x else x - 2 ^ 64

variable {t : IntType} {n : Int}

/-- A number of an integer type fits 64 bits, with or without a sign. -/
theorem IntType.Holds.bounds (h : t.Holds n) : -2 ^ 63 ≤ n ∧ n < 2 ^ 64 := by
  have hleast : -2 ^ 63 ≤ t.least := by cases t <;> decide
  have hgreatest : t.greatest < 2 ^ 64 := by cases t <;> decide
  exact ⟨Int.le_trans hleast h.1, Int.lt_of_le_of_lt h.2 hgreatest⟩

/-- An unsigned type holds the numbers up to its greatest, from zero on. -/
theorem IntType.holds_iff_of_unsigned (hunsigned : t.isSigned = false) :
    t.Holds n ↔ 0 ≤ n ∧ n ≤ t.greatest := by
  rw [Holds, least, hunsigned]
  rfl

theorem toInt_ofInt_stored (h : t.Holds n) : (Int64.ofInt n).toInt = stored n := by
  obtain ⟨hlow, hhigh⟩ := h.bounds
  have hsize : Int64.size = 2 ^ 64 := rfl
  rw [Int64.toInt_ofInt, hsize, Int.bmod_def, stored]
  split <;> split <;> omega

/-! ## §2 Reading integers -/

namespace Value

/-- What is kept of a number. -/
theorem asI64_ofInt (h : t.Holds n) : (ofInt n).asI64.map Int64.toInt = some (stored n) :=
  congrArg some (toInt_ofInt_stored h)

/-- An integer is read as a type exactly if the type holds it, and then it is that integer. -/
theorem asInt_i64 (t : IntType) (m : Int64) :
    (i64 m).asInt t = if t.Holds m.toInt then some m.toInt else none := by
  unfold asInt
  cases hsigned : t.isSigned with
  | true => rfl
  | false =>
    rw [if_neg Bool.false_ne_true]
    simp only [IntType.holds_iff_of_unsigned hsigned, asU64, Int64.le_iff_toInt_le,
      Int64.toInt_zero]
    by_cases hsign : 0 ≤ m.toInt
    -- The unsigned word of an integer without a sign is the integer itself.
    · have hword : (m.toUInt64.toNat : Int) = m.toInt := by
        rw [Int64.toNat_toUInt64_of_le (Int64.le_iff_toInt_le.mpr hsign), ← Int64.toNat_toInt]
        exact Int.toNat_of_nonneg hsign
      simp [hsign, hword]
    · simp [hsign]

theorem asInt_eq_some_iff (m : Int64) : (i64 m).asInt t = some n ↔ n = m.toInt ∧ t.Holds n := by
  rw [asInt_i64]
  by_cases hholds : t.Holds m.toInt
  · rw [if_pos hholds, Option.some.injEq, eq_comm]
    exact ⟨fun h => ⟨h, h ▸ hholds⟩, And.left⟩
  · rw [if_neg hholds]
    constructor
    · intro h
      cases h
    · rintro ⟨rfl, h⟩
      exact absurd h hholds

/-- Comparison with a number of an integer type is comparison of integers. -/
theorem equalsPrimitive_i64_iff (m : Int64) (h : t.Holds n) :
    (i64 m).equalsPrimitive (.int t n) = true ↔ m.toInt = n := by
  rw [equalsPrimitive, beq_iff_eq, asInt_eq_some_iff, and_iff_left h, eq_comm]

/-- No value equals a number that is too large for a signed word. -/
theorem equalsPrimitive_of_large (v : Value) (h : 2 ^ 63 ≤ n) :
    v.equalsPrimitive (.int t n) = false := by
  rw [equalsPrimitive, beq_eq_false_iff_ne]
  intro hread
  cases v with
  | i64 m =>
    have hbound := m.toInt_lt
    obtain ⟨rfl, -⟩ := (asInt_eq_some_iff m).mp hread
    omega
  | null | bool | f64 | string | array | object =>
    unfold asInt at hread
    split at hread <;> cases hread

/-! ## §3 All pairs of types -/

/-- A number of one integer type is stored, and compared with and read as numbers of another one.
On either side and in either sense, the comparison is that of the integer that is kept with the
other number. The kept integer is read as every type that holds it and as no other one, and the
number is encoded as the same value. An unsigned number of `2 ^ 63` or more equals no value at all.
Integers hold no text, so nothing of this depends on the representation. -/
theorem integers_exact {T U : IntType} {x y : Int} (hx : T.Holds x) (hy : U.Holds y) :
    let v := ofPrimitive (.int T x)
    v.asI64.map Int64.toInt = some (stored x) ∧
      (v.equalsPrimitive (.int U y) = true ↔ stored x = y) ∧
      (primitiveEquals (.int U y) v = true ↔ stored x = y) ∧
      (¬ v.differsPrimitive (.int U y) = true ↔ stored x = y) ∧
      (¬ primitiveDiffers (.int U y) v = true ↔ stored x = y) ∧
      (∀ n, v.asInt U = some n ↔ n = stored x ∧ U.Holds n) ∧
      (∀ limit depth, Live.contents <$> (Shape.int T x).encodeAt limit depth = .ok v) ∧
      v.equals v = true ∧
      (2 ^ 63 ≤ y → ∀ w : Value, w.equalsPrimitive (.int U y) = false) := by
  intro v
  have hkept : (Int64.ofInt x).toInt = stored x := toInt_ofInt_stored hx
  have hequals : v.equalsPrimitive (.int U y) = true ↔ stored x = y := by
    rw [← hkept]
    exact equalsPrimitive_i64_iff (Int64.ofInt x) hy
  have hdiffers : ¬ v.differsPrimitive (.int U y) = true ↔ stored x = y := by
    rw [differsPrimitive, Bool.not_eq_true', Bool.not_eq_false, hequals]
  refine ⟨asI64_ofInt hx, hequals, hequals, hdiffers, hdiffers, fun n => ?_, fun _ _ => rfl, ?_,
    fun hlarge w => equalsPrimitive_of_large w hlarge⟩
  · rw [← hkept]
    exact asInt_eq_some_iff (Int64.ofInt x)
  · exact beq_self_eq_true (Int64.ofInt x)

/-- The greatest unsigned number is kept as minus one: it equals the signed number, but neither
itself nor another unsigned one. -/
theorem integers_exact_greatest :
    let v := ofPrimitive (.int .u64 (2 ^ 64 - 1))
    IntType.u64.Holds (2 ^ 64 - 1) ∧ IntType.i8.Holds (-1) ∧ stored (2 ^ 64 - 1) = -1 ∧
      v.equalsPrimitive (.int .i8 (-1)) = true ∧ v.asInt .i8 = some (-1) ∧
      v.equalsPrimitive (.int .u64 (2 ^ 64 - 1)) = false ∧
      ∀ w : Value, w.equalsPrimitive (.int .u64 (2 ^ 64 - 1)) = false := by
  intro v
  have hlarge : IntType.u64.Holds (2 ^ 64 - 1) := by decide
  have hsmall : IntType.i8.Holds (-1) := by decide
  have hkept : stored (2 ^ 64 - 1) = -1 := by decide
  obtain ⟨-, hequals, -, -, -, hread, -⟩ := integers_exact hlarge hsmall
  obtain ⟨-, -, -, -, -, -, -, -, hnone⟩ := integers_exact hlarge hlarge
  exact ⟨hlarge, hsmall, hkept, hequals.mpr hkept, (hread (-1)).mpr ⟨hkept.symm, hsmall⟩,
    hnone (by decide) v, hnone (by decide)⟩

end Value

end JsonTree
