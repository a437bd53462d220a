import JsonTree.Number.Collect
import Mathlib.Algebra.Order.Ring.Nat

/-!
# What the words hold of a literal

Digits are collected one by one, in a word that cannot hold them all. What a word holds is compared
with the number that the digits taken so far spell: either it is that number, or the word is marked.
The invariants say so for one digit, and for a run of digits by induction on the run.

## Main statements

- `Literal.holds_wholeWord`: the integer part is held exactly, or it is marked and needs more than
  64 bits.
- `Literal.holds_decimal`: unless marked, the word of integer part and fraction is the significand.
- `Literal.exponentSize_eq`: the exponent is exact up to its limit.
-/

namespace JsonTree.Literal

/-! ## §1 Digits -/

/-- The number that a digit stands for. -/
abbrev digitValue (d : UInt8) : Nat := d.toNat - 0x30

theorem digitValue_lt {d : UInt8} (hd : Byte.isDigit d = true) : digitValue d < 10 := by
  simp only [Byte.isDigit, Bool.and_eq_true, decide_eq_true_eq, UInt8.le_iff_toNat_le] at hd
  have hlow : (0x30 : UInt8).toNat = 48 := rfl
  have hhigh : (0x39 : UInt8).toNat = 57 := rfl
  unfold digitValue
  omega

theorem toNat_digitWord {d : UInt8} (hd : Byte.isDigit d = true) :
    (digitWord d).toNat = digitValue d := by
  simp only [Byte.isDigit, Bool.and_eq_true, decide_eq_true_eq] at hd
  have hle : (0x30 : UInt8) ≤ d := hd.1
  rw [digitWord, UInt8.toNat_toUInt64, UInt8.toNat_sub_of_le _ _ hle]
  rfl

theorem natOfDigits_foldl (ds : Bytes) (n : Nat) :
    ds.foldl (fun n d => 10 * n + digitValue d) n = n * 10 ^ ds.length + natOfDigits ds := by
  induction ds generalizing n with
  | nil => simp [natOfDigits]
  | cons d ds ih =>
    rw [natOfDigits, List.foldl_cons, List.foldl_cons, ih, ih, List.length_cons, Nat.pow_succ]
    simp only [Nat.mul_zero, Nat.zero_add, Nat.add_mul]
    rw [Nat.mul_comm 10 n, Nat.mul_assoc, Nat.mul_comm 10, Nat.add_assoc]

theorem natOfDigits_append (ds es : Bytes) :
    natOfDigits (ds ++ es) = natOfDigits ds * 10 ^ es.length + natOfDigits es := by
  rw [natOfDigits, List.foldl_append]
  exact natOfDigits_foldl es (natOfDigits ds)

/-! ## §2 The integer part -/

/-- A word holds a number of at most so many digits, or is marked because the number is too
large. -/
structure WholeWord.Holds (w : WholeWord) (n : Nat) : Prop where
  exact : w.overflow = false → w.value.toNat = n ∧ n < 10 ^ w.digits
  large : w.overflow = true → 2 ^ 64 ≤ n

/-- The test before a digit is taken finds exactly the numbers that need more than 64 bits. -/
theorem wraps_iff (value digit : UInt64) (hdigit : digit.toNat < 10) :
    ((0xFFFFFFFFFFFFFFFF / 10 : UInt64) < value ∨
      (value = 0xFFFFFFFFFFFFFFFF / 10 ∧ (0xFFFFFFFFFFFFFFFF % 10 : UInt64) < digit)) ↔
        2 ^ 64 ≤ 10 * value.toNat + digit.toNat := by
  have hlimit : (0xFFFFFFFFFFFFFFFF / 10 : UInt64).toNat = 1844674407370955161 := rfl
  have hlast : (0xFFFFFFFFFFFFFFFF % 10 : UInt64).toNat = 5 := rfl
  rw [UInt64.lt_iff_toNat_lt, UInt64.lt_iff_toNat_lt, ← UInt64.toNat_inj, hlimit, hlast]
  omega

theorem WholeWord.Holds.push {w : WholeWord} {n : Nat} (h : w.Holds n) {d : UInt8}
    (hd : Byte.isDigit d = true) : (w.push d).Holds (10 * n + digitValue d) := by
  have hlt := digitValue_lt hd
  have hword := toNat_digitWord hd
  have hwraps := wraps_iff w.value (digitWord d) (hword ▸ hlt)
  cases hover : w.overflow with
  | true =>
    -- A marked word stays marked, and the number only grows.
    have hlarge := h.large hover
    constructor
    · intro hpush
      simp [WholeWord.push, hover] at hpush
    · intro _
      omega
  | false =>
    obtain ⟨hvalue, hdigits⟩ := h.exact hover
    rw [hword, hvalue] at hwraps
    -- The word is marked exactly where the next number would not fit.
    by_cases hwrap : 2 ^ 64 ≤ 10 * n + digitValue d
    · have hpush : w.push d = { w with overflow := true } := by
        have htest := hwraps.mpr hwrap
        simp only [WholeWord.push, hover, Bool.false_or, Bool.or_eq_true, decide_eq_true_eq,
          Bool.and_eq_true, beq_iff_eq]
        rw [if_pos htest]
      rw [hpush]
      exact ⟨fun h => (Bool.noConfusion h), fun _ => hwrap⟩
    · have hpush : w.push d = ⟨w.value * 10 + digitWord d, w.digits + 1, false⟩ := by
        have htest := mt hwraps.mp hwrap
        simp only [WholeWord.push, hover, Bool.false_or, Bool.or_eq_true, decide_eq_true_eq,
          Bool.and_eq_true, beq_iff_eq]
        rw [if_neg htest]
      have hten : (10 : UInt64).toNat = 10 := rfl
      rw [hpush]
      refine ⟨fun _ => ⟨?_, ?_⟩, fun h => (Bool.noConfusion h)⟩
      · rw [UInt64.toNat_add, UInt64.toNat_mul, hvalue, hword, hten]
        omega
      · rw [Nat.pow_succ]
        omega

/-- Unless it is marked, the word holds the integer part. -/
theorem holds_wholeWord {ds : Bytes} (hds : ∀ d ∈ ds, Byte.isDigit d = true) :
    (wholeWord ds).Holds (natOfDigits ds) := by
  -- The induction is on the digits that are left, for any word that holds those taken.
  have hrun : ∀ (w : WholeWord) (n : Nat), w.Holds n →
      (ds.foldl WholeWord.push w).Holds (ds.foldl (fun n d => 10 * n + digitValue d) n) := by
    induction ds with
    | nil => exact fun w n h => h
    | cons d ds ih =>
      intro w n h
      rw [List.forall_mem_cons] at hds
      exact ih hds.2 _ _ (h.push hds.1)
  unfold wholeWord
  split
  · rename_i hzero
    rw [hzero]
    exact ⟨fun _ => ⟨rfl, by decide⟩, fun h => (Bool.noConfusion h)⟩
  · exact hrun _ _ ⟨fun _ => ⟨rfl, by decide⟩, fun h => (Bool.noConfusion h)⟩

/-! ## §3 The fraction -/

/-- Unless it is marked, a word holds a number of which so many digits belong to the fraction. -/
structure DecimalWord.Holds (w : DecimalWord) (n places : Nat) : Prop where
  exact : w.truncated = false → w.value.toNat = n ∧ n < 10 ^ w.digits ∧ w.places = places
  few : w.places ≤ digitLimit

theorem DecimalWord.Holds.push {w : DecimalWord} {n places : Nat} (h : w.Holds n places) {d : UInt8}
    (hd : Byte.isDigit d = true) (hfew : w.places ≤ w.digits) :
    (w.push d).Holds (10 * n + digitValue d) (places + 1) ∧
      (w.push d).places ≤ (w.push d).digits := by
  have hlt := digitValue_lt hd
  have hword := toNat_digitWord hd
  unfold DecimalWord.push
  split
  · rename_i hroom
    refine ⟨⟨?_, ?_⟩, Nat.succ_le_succ hfew⟩
    · intro htruncated
      obtain ⟨hvalue, hdigits, hplaces⟩ := h.exact htruncated
      have hten : (10 : UInt64).toNat = 10 := rfl
      -- Nineteen digits are fewer than the word can hold.
      have hbound : 10 ^ (w.digits + 1) ≤ 10 ^ 19 := Nat.pow_le_pow_right (by decide) hroom
      have hnext : 10 * n + digitValue d < 10 ^ (w.digits + 1) := by
        rw [Nat.pow_succ]
        omega
      refine ⟨?_, hnext, congrArg (· + 1) hplaces⟩
      rw [UInt64.toNat_add, UInt64.toNat_mul, hvalue, hword, hten]
      omega
    · exact Nat.le_trans (Nat.succ_le_succ hfew) hroom
  · exact ⟨⟨fun h => (Bool.noConfusion h), h.few⟩, hfew⟩

theorem DecimalWord.Holds.foldl {ds : Bytes} (hds : ∀ d ∈ ds, Byte.isDigit d = true)
    {w : DecimalWord} {n places : Nat} (h : w.Holds n places) (hfew : w.places ≤ w.digits) :
    (ds.foldl DecimalWord.push w).Holds (n * 10 ^ ds.length + natOfDigits ds)
      (places + ds.length) := by
  rw [← natOfDigits_foldl]
  induction ds generalizing w n places with
  | nil => exact h
  | cons d ds ih =>
    rw [List.forall_mem_cons] at hds
    obtain ⟨hpush, hfewPush⟩ := h.push hds.1 hfew
    rw [List.length_cons, Nat.add_comm ds.length, ← Nat.add_assoc]
    exact ih hds.2 hpush hfewPush

/-! ## §4 The exponent -/

/-- The size of an exponent is exact up to the limit. -/
theorem exponentSize_eq (ds : Bytes) : exponentSize ds = min exponentLimit (natOfDigits ds) := by
  -- Cutting off at the limit early or late comes to the same.
  have hrun : ∀ e, ds.foldl (fun e d => min exponentLimit (10 * e + digitValue d))
      (min exponentLimit e) =
        min exponentLimit (ds.foldl (fun n d => 10 * n + digitValue d) e) := by
    induction ds with
    | nil => exact fun e => rfl
    | cons d ds ih =>
      intro e
      have hstep : min exponentLimit (10 * min exponentLimit e + digitValue d) =
          min exponentLimit (10 * e + digitValue d) := by omega
      rw [List.foldl_cons, List.foldl_cons, hstep, ih]
  exact hrun 0

/-! ## §5 The literal -/

/-- The digits of a literal are digits. -/
structure Digital (l : Literal) : Prop where
  whole : ∀ d ∈ l.whole, Byte.isDigit d = true
  fraction : ∀ d ∈ l.fraction.getD [], Byte.isDigit d = true

/-- Unless it is marked, the word of integer part and fraction is the significand. -/
theorem holds_decimal {l : Literal} (hl : l.Digital) :
    l.collected.decimal.Holds l.significand (l.fraction.getD []).length := by
  have hwhole := holds_wholeWord hl.whole
  have hstart : (⟨(wholeWord l.whole).value, 0, (wholeWord l.whole).digits,
      (wholeWord l.whole).overflow⟩ : DecimalWord).Holds (natOfDigits l.whole) 0 :=
    ⟨fun h => ⟨(hwhole.exact h).1, (hwhole.exact h).2, rfl⟩, Nat.zero_le _⟩
  have hrun := hstart.foldl hl.fraction (Nat.zero_le _)
  rw [Nat.zero_add, ← natOfDigits_append] at hrun
  exact hrun

end JsonTree.Literal
