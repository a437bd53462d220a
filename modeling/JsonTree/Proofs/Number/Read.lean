import JsonTree.Proofs.Number.Decimal
import JsonTree.Proofs.Number.Syntax
import JsonTree.Proofs.Number.Words

/-!
# The number of a literal

What the machine words hold decides which of three ways gives the number, and all three give the
same: the exact integer where there is one, and otherwise the double nearest to the exact value.

## Main definitions

- `Literal.oneOperation`: the double that one operation makes of what the words hold.

## Main statements

- `Literal.integer?_eq_some_iff`: the integers of 64 bits are found, exactly.
- `Literal.quick?_eq_some_iff`: the literals that go the quick way.
- `Literal.nearest?_of_quick?`: the quick way gives the nearest double.
- `Literal.exists_denotes_iff`: which literals denote a number.
- `Literal.number?_eq_some_iff`: the number that is found is the one that the literal denotes.
- `Number.numeral_of_read`, `Number.read_numeral`: what is read is a numeral and the number that it
  denotes, and every numeral is read.
-/

namespace JsonTree

open Grammar

namespace Literal

/-! ## §1 Integers -/

theorem toInt_toInt64 {w : UInt64} (hw : w.toNat < 2 ^ 63) : w.toInt64.toInt = w.toNat := by
  rw [← Int64.toInt_toBitVec, UInt64.toBitVec_toInt64, BitVec.toInt_eq_toNat_cond,
    UInt64.toNat_toBitVec, if_pos (by omega)]

theorem toInt_neg_toInt64 {w : UInt64} (hw : w.toNat ≤ 2 ^ 63) :
    (-w.toInt64).toInt = -(w.toNat : Int) := by
  have hofNat : w.toInt64 = Int64.ofNat w.toNat := by
    apply Int64.toBitVec_inj.mp
    rw [UInt64.toBitVec_toInt64]
    change w.toBitVec = BitVec.ofNat 64 w.toBitVec.toNat
    rw [BitVec.ofNat_toNat, BitVec.setWidth_eq]
  rw [hofNat, Int64.toInt_neg_ofNat_of_le hw]

/-- A sign and a word make an integer of 64 bits whenever there is one. -/
theorem wordInteger?_eq_some_iff (negative : Bool) (w : UInt64) (n : Int64) :
    wordInteger? negative w = some n ↔
      -2 ^ 63 ≤ signed negative w.toNat ∧ signed negative w.toNat < 2 ^ 63 ∧
        n.toInt = signed negative w.toNat := by
  have hlimit : (0x8000000000000000 : UInt64).toNat = 2 ^ 63 := rfl
  cases negative with
  | true =>
    simp only [wordInteger?, signed, if_true, UInt64.le_iff_toNat_le, hlimit]
    by_cases hw : w.toNat ≤ 2 ^ 63
    · rw [if_pos hw, Option.some.injEq, ← Int64.toInt_inj, toInt_neg_toInt64 hw]
      omega
    · rw [if_neg hw]
      simp only [reduceCtorEq, false_iff]
      omega
  | false =>
    simp only [wordInteger?, signed, Bool.false_eq_true, if_false, UInt64.lt_iff_toNat_lt, hlimit]
    by_cases hw : w.toNat < 2 ^ 63
    · rw [if_pos hw, Option.some.injEq, ← Int64.toInt_inj, toInt_toInt64 hw]
      omega
    · rw [if_neg hw]
      simp only [reduceCtorEq, false_iff]
      omega

variable {l : Literal}

/-- The integers of 64 bits are found, exactly. -/
theorem integer?_eq_some_iff (hl : l.Digital) (n : Int64) :
    l.integer? = some n ↔ IsInteger l ∧ n.toInt = l.integer := by
  have hholds : (l.collected.whole).Holds (natOfDigits l.whole) := holds_wholeWord hl.whole
  have hplain : l.isInteger = true ↔ l.fraction = none ∧ l.exponent = none := by
    simp [isInteger]
  unfold integer?
  cases hover : l.collected.whole.overflow with
  | true =>
    -- More than 64 bits are out of range with either sign.
    have hlarge := hholds.large hover
    have hrange : ¬ (-2 ^ 63 ≤ l.integer ∧ l.integer < 2 ^ 63) := by
      unfold integer signed
      split <;> omega
    simp only [hover, Bool.not_true, Bool.and_false, Bool.false_eq_true, if_false, reduceCtorEq,
      false_iff]
    exact fun h => hrange h.1.2.2
  | false =>
    have hvalue := (hholds.exact hover).1
    simp only [hover, Bool.not_false, Bool.and_true]
    by_cases hinteger : l.isInteger = true
    · obtain ⟨hfraction, hexponent⟩ := hplain.mp hinteger
      rw [if_pos hinteger, wordInteger?_eq_some_iff, hvalue]
      simp only [IsInteger, hfraction, hexponent, true_and, and_assoc]
      rfl
    · rw [if_neg hinteger]
      simp only [reduceCtorEq, false_iff]
      exact fun h => hinteger (hplain.mpr ⟨h.1.1, h.1.2.1⟩)

/-! ## §2 Doubles -/

/-- The double that one operation makes of what the words hold. -/
def oneOperation (l : Literal) : Binary64 :=
  let x := Binary64.ofInt l.collected.decimal.value.toNat
  let scale := l.collected.exponent - l.collected.decimal.places
  let size :=
    if 0 ≤ scale then x.mul (powerOfTen scale.toNat) else x.div (powerOfTen (-scale).toNat)
  if l.negative then size.neg else size

/-- One operation on exact doubles rounds a short decimal. -/
theorem operation_eq {v : Nat} (hv : v ≤ 2 ^ 53) {scale : Int} (hlow : -shortScale ≤ scale)
    (hhigh : scale ≤ shortScale) :
    (if 0 ≤ scale then (Binary64.ofInt v).mul (powerOfTen scale.toNat)
      else (Binary64.ofInt v).div (powerOfTen (-scale).toNat)) =
        .ofMagnitude false (Binary64.magnitudeOfDecimal v scale) := by
  have hlimit : shortScale = 22 := rfl
  have hpower : ∀ k, powerOfTen k = .ofInt (10 ^ k) := fun _ => rfl
  split
  · rename_i hnonneg
    have hscale : ((scale.toNat : Nat) : Int) = scale := Int.toNat_of_nonneg hnonneg
    rw [hpower, Binary64.mul_ten_pow hv (by omega), hscale]
  · rename_i hneg
    have hscale : -(((-scale).toNat : Nat) : Int) = scale := by omega
    rw [hpower, Binary64.div_ten_pow hv (by omega), hscale]

/-- The scale of a short decimal is that of the literal, because the limit of the exponent lies far
outside the short scales. -/
theorem scale_eq (hl : l.Digital) (htruncated : l.collected.decimal.truncated = false)
    (hlow : -shortScale ≤ l.collected.exponent - l.collected.decimal.places)
    (hhigh : l.collected.exponent - l.collected.decimal.places ≤ shortScale) :
    l.collected.exponent - l.collected.decimal.places = l.scale := by
  obtain ⟨hexact, hfew⟩ := holds_decimal hl
  have hplaces := (hexact htruncated).2.2
  obtain ⟨⟨minus, ds⟩, hexponent⟩ : ∃ e, l.exponent.getD (false, []) = e := ⟨_, rfl⟩
  have hcollected : l.collected.exponent = signed minus (exponentSize ds) := by
    simp only [collected, hexponent]
  have hscale : l.scale = signed minus (natOfDigits ds) - (l.fraction.getD []).length := by
    simp only [scale, hexponent]
  have hsize := exponentSize_eq ds
  have hlimits : exponentLimit = 400 ∧ digitLimit = 19 ∧ shortScale = 22 := ⟨rfl, rfl, rfl⟩
  rw [hcollected] at hlow hhigh ⊢
  rw [hscale, hplaces]
  rw [hplaces] at hlow hhigh hfew
  unfold signed at hlow hhigh ⊢
  cases minus <;> simp only [if_true, if_false, Bool.false_eq_true] at hlow hhigh ⊢ <;> omega

/-- The quick way is open to short decimals, and is one operation. -/
theorem quick?_eq_some_iff (l : Literal) (x : Binary64) :
    l.quick? = some x ↔
      l.collected.decimal.truncated = false ∧ l.collected.decimal.value.toNat ≤ 2 ^ 53 ∧
        -shortScale ≤ l.collected.exponent - l.collected.decimal.places ∧
        l.collected.exponent - l.collected.decimal.places ≤ shortScale ∧
        l.oneOperation = x := by
  have hlimit : shortSignificand.toNat = 2 ^ 53 := rfl
  unfold quick?
  simp only [Bool.and_eq_true, Bool.not_eq_true', decide_eq_true_eq, UInt64.le_iff_toNat_le,
    hlimit, and_assoc]
  split
  · rename_i hshort
    obtain ⟨htruncated, hvalue, hlow, hhigh⟩ := hshort
    simp only [htruncated, hvalue, hlow, hhigh, true_and, Option.some.injEq]
    rfl
  · rename_i hlong
    simp only [reduceCtorEq, false_iff]
    exact fun h => hlong ⟨h.1, h.2.1, h.2.2.1, h.2.2.2.1⟩

/-- The quick way gives the nearest double. -/
theorem nearest?_of_quick? (hl : l.Digital) {x : Binary64} (h : l.quick? = some x) :
    l.nearest? = some x := by
  obtain ⟨hexact, -⟩ := holds_decimal hl
  obtain ⟨htruncated, hvalue, hlow, hhigh, rfl⟩ := (quick?_eq_some_iff l x).mp h
  have hsignificand := (hexact htruncated).1
  have hscale := scale_eq hl htruncated hlow hhigh
  rw [hsignificand] at hvalue
  rw [hscale] at hlow hhigh
  have hfinite := Binary64.magnitudeOfDecimal_lt_infinity hvalue hhigh
  simp only [nearest?, Binary64.ofDecimal, hfinite, if_true, oneOperation, hsignificand, hscale,
    operation_eq hvalue hlow hhigh]
  cases l.negative with
  | true => simp only [if_true, Binary64.neg_ofMagnitude hfinite]
  | false => rfl

theorem nearest?_eq_some_iff (l : Literal) (x : Binary64) :
    l.nearest? = some x ↔ l.size < 2 ^ 1024 - 2 ^ 970 ∧ x.IsNearest l.negative l.size :=
  Binary64.ofDecimal_eq_some_iff l.negative l.significand l.scale x

/-! ## §3 Numbers -/

/-- The three ways to the number come down to two. -/
theorem number?_eq (hl : l.Digital) :
    l.number? =
      match l.integer? with
      | some n => some (.i64 n)
      | none => l.nearest?.map .f64 := by
  unfold number?
  cases l.integer? with
  | some n => rfl
  | none =>
    cases hquick : l.quick? with
    | none => rfl
    | some x => simp only [nearest?_of_quick? hl hquick, Option.map_some]

theorem exists_toInt_eq (h : IsInteger l) : ∃ i : Int64, i.toInt = l.integer := by
  obtain ⟨-, -, hlow, hhigh⟩ := h
  have hsize : ((Int64.size : Nat) : Int) = 2 ^ 64 := rfl
  refine ⟨Int64.ofInt l.integer, ?_⟩
  rw [Int64.toInt_ofInt]
  exact Int.bmod_eq_of_le (by omega) (by omega)

/-- A literal denotes a number if it is an integer in range or its size is below the limit, and in
no other case. -/
theorem exists_denotes_iff (l : Literal) :
    (∃ n, Denotes l n) ↔ IsInteger l ∨ l.size < 2 ^ 1024 - 2 ^ 970 := by
  constructor
  · rintro ⟨n, hn⟩
    cases hn with
    | integer hin => exact .inl hin
    | double _ hlimit _ => exact .inr hlimit
  · intro h
    by_cases hin : IsInteger l
    · obtain ⟨i, hi⟩ := exists_toInt_eq hin
      exact ⟨_, .integer hin hi⟩
    · have hlimit := h.resolve_left hin
      obtain ⟨x, hx⟩ := Binary64.exists_isNearest l.negative hlimit
      exact ⟨_, .double hin hlimit hx⟩

/-- The number that is found is the one that the literal denotes. -/
theorem number?_eq_some_iff (hl : l.Digital) (n : Number) : l.number? = some n ↔ Denotes l n := by
  rw [number?_eq hl]
  have hinteger := integer?_eq_some_iff hl
  have hexists : IsInteger l → ∃ i, l.integer? = some i := by
    intro h
    obtain ⟨i, hi⟩ := exists_toInt_eq h
    exact ⟨i, (hinteger i).mpr ⟨h, hi⟩⟩
  -- Integers come first: a double is taken only where the literal is no integer in range.
  cases hfound : l.integer? with
  | some i =>
    obtain ⟨hin, hvalue⟩ := (hinteger i).mp hfound
    constructor
    · intro h
      cases h
      exact .integer hin hvalue
    · intro h
      cases h with
      | integer _ hvalue' =>
        rw [Int64.toInt_inj.mp (hvalue.trans hvalue'.symm)]
      | double hout => exact absurd hin hout
  | none =>
    have hout : ¬ IsInteger l := by
      intro hin
      obtain ⟨i, hi⟩ := hexists hin
      cases hfound.symm.trans hi
    simp only [Option.map_eq_some_iff, nearest?_eq_some_iff]
    constructor
    · rintro ⟨x, ⟨hlimit, hnear⟩, rfl⟩
      exact .double hout hlimit hnear
    · intro h
      cases h with
      | integer hin => exact absurd hin hout
      | double _ hlimit hnear => exact ⟨_, ⟨hlimit, hnear⟩, rfl⟩

/-- The parts of a numeral are digits. -/
theorem digital_of_numeral {text : Bytes} (h : Numeral text l) : l.Digital := by
  obtain ⟨hwhole, hpoint, -⟩ := h
  constructor
  · cases hwhole with
    | zero =>
      intro d hd
      cases List.mem_singleton.mp hd
      rfl
    | run hds => exact hds.digit
  · cases hpoint with
    | absent => exact fun d hd => absurd hd List.not_mem_nil
    | present hds => exact hds.digit

end Literal

/-! ## §4 Reading -/

/-- What is read at the front is a numeral, and the number that it denotes. -/
theorem Number.numeral_of_read {negative : Bool} {bs rest : Bytes} {n : Number}
    (hminus : negative = true → bs.head? = some Byte.minus)
    (h : Number.read negative bs = some (n, rest)) :
    ∃ text l, bs = text ++ rest ∧ Numeral text l ∧ Denotes l n := by
  obtain ⟨⟨l, rest'⟩, hread, h⟩ := Option.bind_eq_some_iff.mp h
  obtain ⟨n', hnumber, h⟩ := Option.bind_eq_some_iff.mp h
  cases h
  obtain ⟨text, hbs, hnumeral, -⟩ := Literal.numeral_of_read hminus hread
  have hdenotes := (Literal.number?_eq_some_iff (Literal.digital_of_numeral hnumeral) n).mp hnumber
  exact ⟨text, l, hbs, hnumeral, hdenotes⟩

/-- A numeral that a delimiter or the end follows is read as the number that it denotes. -/
theorem Number.read_numeral {text rest : Bytes} {l : Literal} {n : Number} (h : Numeral text l)
    (hdenotes : Denotes l n) (hrest : Delimited rest) :
    Number.read l.negative (text ++ rest) = some (n, rest) := by
  have hnumber := (Literal.number?_eq_some_iff (Literal.digital_of_numeral h) n).mpr hdenotes
  unfold Number.read
  rw [Literal.read_numeral h hrest, Option.bind_eq_bind, Option.bind_some]
  simp only [hnumber]
  rfl

end JsonTree
