import JsonTree.Utf8
import Mathlib.Algebra.Group.Nat.Defs
import Mathlib.Data.List.Basic

/-!
# Well-formed byte strings

A byte string is well formed exactly if it consists of the forms of some scalar values, one after
the other. A byte below `0x80` is a form by itself and no part of another one, so that a well-formed
string can be cut in front of such a byte and behind it.

## Main definitions

- `Utf8.Form`: the shortest form of a scalar value, by its lead byte and the bits that follow.
- `Utf8.Forms`: some forms, one after the other.
- `Utf8.Ascii`: bytes below `0x80`.

## Main statements

- `Utf8.form_encode`: the encoder writes the form of every scalar value.
- `Utf8.decode_eq_some_iff`: the reader reads forms, and nothing else.
- `Utf8.WellFormed.append`, `Utf8.wellFormed_append_cons_iff`: putting well-formed strings together,
  and cutting them at a byte below `0x80`.
-/

namespace JsonTree.Utf8

/-! ## §1 Bytes and their bits -/

section

variable {a b : UInt8} {n cp : Nat}

theorem ofNat_toNat_of_lt (h : n < 256) : (UInt8.ofNat n).toNat = n := by
  rw [UInt8.toNat_ofNat']
  omega

theorem continued?_eq_some_iff : continued? b = some n ↔ n < 64 ∧ b.toNat = 0x80 + n := by
  simp only [continued?, UInt8.le_iff_toNat_le, Bool.and_eq_true, decide_eq_true_eq,
    UInt8.reduceToNat]
  split <;> simp <;> omega

/-- A byte behind the first one carries six bits. -/
theorem continued?_lt (h : continued? b = some n) : n < 64 := (continued?_eq_some_iff.mp h).1

theorem continued?_continuation (cp i : Nat) :
    continued? (continuation cp i) = some (cp / 2 ^ (6 * i) % 64) := by
  rw [continued?_eq_some_iff, continuation, Nat.shiftRight_eq_div_pow]
  exact ⟨by omega, ofNat_toNat_of_lt (by omega)⟩

theorem isScalarValue_eq_true_iff :
    isScalarValue cp = true ↔ cp ≤ 0x10FFFF ∧ (cp < 0xD800 ∨ 0xDFFF < cp) := by
  simp [isScalarValue]

end

/-! ## §2 Forms -/

/-- The form of a scalar value: a lead byte that tells the length, and bytes that carry six bits
each. The length is the least that the value fits. -/
inductive Form (cp : Nat) : Bytes → Prop where
  | one {a : UInt8} : a.toNat = cp → cp < 0x80 → Form cp [a]
  | two {a b : UInt8} {l m : Nat} :
      a.toNat = 0xC0 + l → continued? b = some m → l * 64 + m = cp →
      0x80 ≤ cp → cp < 0x800 → Form cp [a, b]
  | three {a b c : UInt8} {l m n : Nat} :
      a.toNat = 0xE0 + l → continued? b = some m → continued? c = some n →
      (l * 64 + m) * 64 + n = cp → 0x800 ≤ cp → cp < 0x10000 → isScalarValue cp = true →
      Form cp [a, b, c]
  | four {a b c d : UInt8} {l m n o : Nat} :
      a.toNat = 0xF0 + l → continued? b = some m → continued? c = some n → continued? d = some o →
      ((l * 64 + m) * 64 + n) * 64 + o = cp → 0x10000 ≤ cp → isScalarValue cp = true →
      Form cp [a, b, c, d]

variable {bs cs rest : Bytes} {cp : Nat} {cps : List Nat}

/-- The encoder writes the form of every scalar value. -/
theorem form_encode (h : isScalarValue cp = true) : Form cp (encode cp) := by
  have hrange := isScalarValue_eq_true_iff.mp h
  have hbits := continued?_continuation cp
  unfold encode
  split
  · exact .one (ofNat_toNat_of_lt (by omega)) ‹_›
  split
  · exact .two (ofNat_toNat_of_lt (by omega)) (hbits 0) (by omega) (by omega) ‹_›
  rw [Nat.shiftRight_eq_div_pow, Nat.shiftRight_eq_div_pow]
  split
  · exact .three (ofNat_toNat_of_lt (by omega)) (hbits 1) (hbits 0) (by omega) (by omega) ‹_› h
  rw [if_pos hrange.1]
  exact .four (ofNat_toNat_of_lt (by omega)) (hbits 2) (hbits 1) (hbits 0) (by omega) (by omega) h

/-- The reader takes a form and goes on after it. -/
theorem Form.decode_append (h : Form cp bs) (rest : Bytes) :
    decode (bs ++ rest) = (decode rest).map (cp :: ·) := by
  cases h with
  | one ha hcp =>
    rw [List.singleton_append, decode.eq_def]
    simp only [UInt8.lt_iff_toNat_lt, UInt8.reduceToNat, ha, if_pos hcp]
    rfl
  | @two a b l m ha hb hcp hleast hmost =>
    have hlead : a.toNat - 0xC0 = l := by omega
    rw [List.cons_append, List.singleton_append, decode.eq_def]
    simp only [UInt8.lt_iff_toNat_lt, UInt8.reduceToNat, hb, hlead, hcp, Option.bind_some, bind]
    rw [if_neg (by omega), if_neg (by omega), if_pos (by omega), if_pos hleast]
    rfl
  | @three a b c l m n ha hb hc hcp hleast hmost hscalar =>
    have hlead : a.toNat - 0xE0 = l := by omega
    simp only [List.cons_append, List.nil_append]
    rw [decode.eq_def]
    simp only [UInt8.lt_iff_toNat_lt, UInt8.reduceToNat, hb, hc, hlead, hcp, Option.bind_some, bind,
      hleast, hscalar, decide_true, Bool.and_self]
    rw [if_neg (by omega), if_neg (by omega), if_neg (by omega), if_pos (by omega), if_pos trivial]
    rfl
  | @four a b c d l m n o ha hb hc hd hcp hleast hscalar =>
    have hlead : a.toNat - 0xF0 = l := by omega
    simp only [List.cons_append, List.nil_append]
    rw [decode.eq_def]
    simp only [UInt8.lt_iff_toNat_lt, UInt8.reduceToNat, hb, hc, hd, hlead, hcp, Option.bind_some,
      bind, hleast, hscalar, decide_true, Bool.and_self]
    rw [if_neg (by omega), if_neg (by omega), if_neg (by omega), if_neg (by omega), if_pos trivial]
    rfl

/-- What is read begins with a form. -/
theorem exists_form_of_decode {a : UInt8} (h : decode (a :: bs) = some cps) :
    ∃ cp form rest cps', Form cp form ∧ a :: bs = form ++ rest ∧ cps = cp :: cps' ∧
      decode rest = some cps' := by
  have hsplit : ∀ {rest : Bytes} {cp : Nat}, (cp :: ·) <$> decode rest = some cps →
      ∃ cps', cps = cp :: cps' ∧ decode rest = some cps' := by
    intro rest cp h
    obtain ⟨cps', hrest, rfl⟩ := Option.map_eq_some_iff.mp h
    exact ⟨cps', rfl, hrest⟩
  rw [decode.eq_def] at h
  simp only [UInt8.lt_iff_toNat_lt, UInt8.reduceToNat] at h
  split at h
  · obtain ⟨cps', rfl, hrest⟩ := hsplit h
    exact ⟨_, [a], bs, cps', .one rfl ‹_›, rfl, rfl, hrest⟩
  split at h
  · cases h
  cases bs with
  | nil => cases h
  | cons b bs =>
    obtain ⟨m, hb, h⟩ := Option.bind_eq_some_iff.mp h
    have hm := continued?_lt hb
    split at h
    · obtain ⟨l, ha⟩ : ∃ l, a.toNat = 0xC0 + l := Nat.exists_eq_add_of_le (by omega)
      rw [ha, Nat.add_sub_cancel_left] at h
      split at h
      · obtain ⟨cps', rfl, hrest⟩ := hsplit h
        exact ⟨_, [a, b], bs, cps', .two ha hb rfl ‹_› (by omega), rfl, rfl, hrest⟩
      · cases h
    cases bs with
    | nil => cases h
    | cons c bs =>
      obtain ⟨n, hc, h⟩ := Option.bind_eq_some_iff.mp h
      have hn := continued?_lt hc
      split at h
      · obtain ⟨l, ha⟩ : ∃ l, a.toNat = 0xE0 + l := Nat.exists_eq_add_of_le (by omega)
        rw [ha, Nat.add_sub_cancel_left] at h
        split at h
        · rename_i hcp
          obtain ⟨hleast, hscalar⟩ := Bool.and_eq_true_iff.mp hcp
          obtain ⟨cps', rfl, hrest⟩ := hsplit h
          exact ⟨_, [a, b, c], bs, cps',
            .three ha hb hc rfl (of_decide_eq_true hleast) (by omega) hscalar, rfl, rfl, hrest⟩
        · cases h
      cases bs with
      | nil => cases h
      | cons d bs =>
        obtain ⟨o, hd, h⟩ := Option.bind_eq_some_iff.mp h
        obtain ⟨l, ha⟩ : ∃ l, a.toNat = 0xF0 + l := Nat.exists_eq_add_of_le (by omega)
        rw [ha, Nat.add_sub_cancel_left] at h
        split at h
        · rename_i hcp
          obtain ⟨hleast, hscalar⟩ := Bool.and_eq_true_iff.mp hcp
          obtain ⟨cps', rfl, hrest⟩ := hsplit h
          exact ⟨_, [a, b, c, d], bs, cps',
            .four ha hb hc hd rfl (of_decide_eq_true hleast) hscalar, rfl, rfl, hrest⟩
        · cases h

/-- Some scalar values, and their forms one after the other. -/
inductive Forms : List Nat → Bytes → Prop where
  | nil : Forms [] []
  | cons {cp : Nat} {cps : List Nat} {form rest : Bytes} :
      Form cp form → Forms cps rest → Forms (cp :: cps) (form ++ rest)

/-- What is read are the scalar values whose forms stand there. -/
theorem decode_eq_some_iff : decode bs = some cps ↔ Forms cps bs := by
  constructor
  · intro h
    induction hlength : bs.length using Nat.strongRecOn generalizing bs cps with
    | ind n ih =>
      cases bs with
      | nil =>
        cases h
        exact .nil
      | cons a bs =>
        obtain ⟨cp, form, rest, cps, hform, hsplit, rfl, hrest⟩ := exists_form_of_decode h
        rw [hsplit] at hlength ⊢
        have hnonempty : form.length ≠ 0 := by cases hform <;> simp
        rw [List.length_append] at hlength
        exact .cons hform (ih _ (by omega) hrest rfl)
  · intro h
    induction h with
    | nil => rfl
    | cons hform _ ih => rw [hform.decode_append, ih, Option.map_some]

/-! ## §3 Putting together and cutting -/

theorem wellFormed_iff : WellFormed bs ↔ ∃ cps, Forms cps bs := by
  simp only [WellFormed, Option.isSome_iff_exists, decode_eq_some_iff]

theorem wellFormed_nil : WellFormed [] := rfl

theorem Form.wellFormed_append_iff {form : Bytes} (h : Form cp form) :
    WellFormed (form ++ rest) ↔ WellFormed rest := by
  rw [WellFormed, WellFormed, h.decode_append, Option.isSome_map]

theorem wellFormed_encode (h : isScalarValue cp = true) : WellFormed (encode cp) := by
  have hnil := (form_encode h).wellFormed_append_iff.mpr wellFormed_nil
  rwa [List.append_nil] at hnil

/-- A byte below `0x80` is a form by itself. -/
theorem wellFormed_cons_iff {b : UInt8} (hb : b < 0x80) :
    WellFormed (b :: rest) ↔ WellFormed rest :=
  (Form.one rfl (UInt8.lt_iff_toNat_lt.mp hb)).wellFormed_append_iff

theorem WellFormed.append (h : WellFormed bs) (h' : WellFormed cs) : WellFormed (bs ++ cs) := by
  obtain ⟨cps, hbs⟩ := wellFormed_iff.mp h
  induction hbs with
  | nil => exact h'
  | cons hform hrest ih =>
    rw [List.append_assoc, hform.wellFormed_append_iff]
    exact ih (wellFormed_iff.mpr ⟨_, hrest⟩)

/-- Bytes below `0x80`, each of them a form by itself. -/
def Ascii (bs : Bytes) : Prop := ∀ b ∈ bs, b < 0x80

theorem Ascii.wellFormed_append_iff {ascii : Bytes} (h : Ascii ascii) :
    WellFormed (ascii ++ rest) ↔ WellFormed rest := by
  induction ascii with
  | nil => exact Iff.rfl
  | cons b ascii ih =>
    obtain ⟨hb, hascii⟩ := List.forall_mem_cons.mp h
    rw [List.cons_append, wellFormed_cons_iff hb, ih hascii]

/-- All bytes of a form but the first carry bits. -/
theorem Form.le_of_mem_tail {a : UInt8} (h : Form cp (a :: bs)) : ∀ b ∈ bs, 0x80 ≤ b := by
  have hcarries : ∀ {b : UInt8} {n : Nat}, continued? b = some n → 0x80 ≤ b := by
    intro b n hb
    have := (continued?_eq_some_iff.mp hb).2
    simp only [UInt8.le_iff_toNat_le, UInt8.reduceToNat]
    omega
  cases h with
  | one => simp
  | two _ hb => simpa using hcarries hb
  | three _ hb hc => simpa using ⟨hcarries hb, hcarries hc⟩
  | four _ hb hc hd => simpa using ⟨hcarries hb, hcarries hc, hcarries hd⟩

/-- In front of a byte below `0x80` the forms before it are complete. -/
theorem wellFormed_of_forms_append_cons {b : UInt8} (hb : b < 0x80)
    (h : Forms cps (bs ++ b :: cs)) : WellFormed bs ∧ WellFormed (b :: cs) := by
  generalize hwhole : bs ++ b :: cs = whole at h
  induction h generalizing bs with
  | nil => simp at hwhole
  | @cons cp cps form rest hform hrest ih =>
    cases bs with
    | nil =>
      rw [List.nil_append] at hwhole
      rw [hwhole]
      exact ⟨wellFormed_nil, wellFormed_iff.mpr ⟨_, .cons hform hrest⟩⟩
    | cons a bs =>
      rcases List.append_eq_append_iff.mp hwhole with ⟨more, rfl, hmore⟩ | ⟨others, hothers, hrest'⟩
      -- The byte is none of the first form, because it would not be the first one there.
      · cases more with
        | nil =>
          obtain rfl : b :: cs = rest := hmore
          rw [List.append_nil] at hform
          have hbs := hform.wellFormed_append_iff.mpr wellFormed_nil
          rw [List.append_nil] at hbs
          exact ⟨hbs, wellFormed_iff.mpr ⟨_, hrest⟩⟩
        | cons c more =>
          obtain rfl : b = c := List.head_eq_of_cons_eq hmore
          have hle := hform.le_of_mem_tail b (by simp)
          exact absurd hb (UInt8.not_lt.mpr hle)
      · obtain ⟨hbs, hcs⟩ := ih hrest'.symm
        rw [hothers]
        exact ⟨hform.wellFormed_append_iff.mpr hbs, hcs⟩

/-- A well-formed string is well formed on both sides of a byte below `0x80`. -/
theorem wellFormed_append_cons_iff {b : UInt8} (hb : b < 0x80) :
    WellFormed (bs ++ b :: cs) ↔ WellFormed bs ∧ WellFormed cs := by
  constructor
  · intro h
    obtain ⟨cps, hforms⟩ := wellFormed_iff.mp h
    obtain ⟨hbs, hcs⟩ := wellFormed_of_forms_append_cons hb hforms
    exact ⟨hbs, (wellFormed_cons_iff hb).mp hcs⟩
  · rintro ⟨hbs, hcs⟩
    exact hbs.append ((wellFormed_cons_iff hb).mpr hcs)

/-- What comes before bytes below `0x80` is well formed by itself. -/
theorem Ascii.wellFormed_of_append {ascii : Bytes} (h : Ascii ascii)
    (hwhole : WellFormed (bs ++ ascii)) : WellFormed bs := by
  cases ascii with
  | nil => rwa [List.append_nil] at hwhole
  | cons b ascii =>
    obtain ⟨hb, -⟩ := List.forall_mem_cons.mp h
    exact ((wellFormed_append_cons_iff hb).mp hwhole).1

end JsonTree.Utf8
