import JsonTree.Proofs.Text.Characters

/-!
# Lists of scalar values

The forms of some scalar values, written one after the other, can be taken apart again in one way
only: the lead byte of a form tells how long it is, and what follows does not matter to it. So the
reader gives back the list that was written, and it reads nothing that was not written so.

## Main statements

- `Utf8.Form.eq_encode`: a scalar value has one form, the one that the encoder writes.
- `Utf8.forms_iff`: forms one after the other are what the encoder writes of a list.
- `Utf8.encode_list`: lists of scalar values are written as well-formed text and read back.
-/

namespace JsonTree.Utf8

variable {bs : Bytes} {cp cp' : Nat} {cps cps' : List Nat}

/-! ## §1 One form -/

/-- There are forms of scalar values only. -/
theorem Form.scalar (h : Form cp bs) : isScalarValue cp = true := by
  cases h with
  | one _ hcp => exact isScalarValue_eq_true_iff.mpr (by omega)
  | two _ _ _ _ hcp => exact isScalarValue_eq_true_iff.mpr (by omega)
  | three _ _ _ _ _ _ hscalar => exact hscalar
  | four _ _ _ _ _ _ hscalar => exact hscalar

/-- The reader takes a form for what it is the form of. -/
theorem Form.decode_eq (h : Form cp bs) : decode bs = some [cp] := by
  have happend := h.decode_append []
  rwa [List.append_nil] at happend

/-- A byte that carries bits of a value is the one that the encoder writes there. -/
theorem eq_continuation {b : UInt8} {m i : Nat} (hb : continued? b = some m)
    (hbits : cp / 2 ^ (6 * i) % 64 = m) : b = continuation cp i := by
  have hwritten := continued?_continuation cp i
  rw [hbits] at hwritten
  rw [← UInt8.toNat_inj, (continued?_eq_some_iff.mp hb).2, (continued?_eq_some_iff.mp hwritten).2]

/-- A lead byte is the one that the encoder writes. -/
theorem eq_lead {a : UInt8} {mark l n : Nat} (ha : a.toNat = mark + l) (hbits : n = l) :
    a = UInt8.ofNat (mark + n) := by
  rw [hbits, ← ha, UInt8.ofNat_toNat]

/-- A scalar value has one form, the one that the encoder writes. -/
theorem Form.eq_encode (h : Form cp bs) : bs = encode cp := by
  unfold encode
  -- The size of the value tells the length, and six bits of it tell each byte behind the first.
  cases h with
  | one ha hcp => rw [if_pos hcp, ← ha, UInt8.ofNat_toNat]
  | two ha hb hcp hleast hmost =>
    have hm := continued?_lt hb
    rw [if_neg (by omega), if_pos hmost, eq_lead (n := cp / 64) ha (by omega),
      @eq_continuation cp _ _ 0 hb (by omega)]
  | three ha hb hc hcp hleast hmost _ =>
    have hm := continued?_lt hb
    have hn := continued?_lt hc
    rw [if_neg (by omega), if_neg (by omega), if_pos hmost, Nat.shiftRight_eq_div_pow,
      eq_lead (n := cp / 2 ^ 12) ha (by omega), @eq_continuation cp _ _ 1 hb (by omega),
      @eq_continuation cp _ _ 0 hc (by omega)]
  | four ha hb hc hd hcp hleast hscalar =>
    have hm := continued?_lt hb
    have hn := continued?_lt hc
    have ho := continued?_lt hd
    have hmost := (isScalarValue_eq_true_iff.mp hscalar).1
    rw [if_neg (by omega), if_neg (by omega), if_neg (by omega), if_pos hmost,
      Nat.shiftRight_eq_div_pow, eq_lead (n := cp / 2 ^ 18) ha (by omega),
      @eq_continuation cp _ _ 2 hb (by omega), @eq_continuation cp _ _ 1 hc (by omega),
      @eq_continuation cp _ _ 0 hd (by omega)]

/-- No form begins another one. -/
theorem eq_of_encode_prefix (h : isScalarValue cp = true)
    (h' : isScalarValue cp' = true) (hbegins : encode cp <+: encode cp') :
    cp = cp' := by
  obtain ⟨rest, hrest⟩ := hbegins
  have hread := (form_encode h).decode_append rest
  rw [hrest, (form_encode h').decode_eq] at hread
  -- Both forms begin what is read, so the value that is read first is that of both.
  obtain ⟨cps, -, hcps⟩ := Option.map_eq_some_iff.mp hread.symm
  exact (List.cons.inj hcps).1

/-! ## §2 Lists -/

/-- Forms one after the other are what the encoder writes of a list of scalar values. -/
theorem forms_iff :
    Forms cps bs ↔ (∀ cp ∈ cps, isScalarValue cp = true) ∧ bs = cps.flatMap encode := by
  constructor
  · intro h
    induction h with
    | nil => exact ⟨fun cp hcp => absurd hcp List.not_mem_nil, rfl⟩
    | cons hform _ ih =>
      obtain ⟨hscalars, rfl⟩ := ih
      refine ⟨List.forall_mem_cons.mpr ⟨hform.scalar, hscalars⟩, ?_⟩
      rw [List.flatMap_cons, hform.eq_encode]
  · rintro ⟨hscalars, rfl⟩
    induction cps with
    | nil => exact .nil
    | cons cp cps ih =>
      obtain ⟨hcp, hscalars⟩ := List.forall_mem_cons.mp hscalars
      exact .cons (form_encode hcp) (ih hscalars)

/-- What is written of a list of scalar values is read as that list. -/
theorem decode_flatMap_encode (h : ∀ cp ∈ cps, isScalarValue cp = true) :
    decode (cps.flatMap encode) = some cps :=
  decode_eq_some_iff.mpr (forms_iff.mpr ⟨h, rfl⟩)

/-- The scalar values are those of the characters. -/
theorem exists_chars (h : ∀ cp ∈ cps, isScalarValue cp = true) :
    ∃ cs : List Char, cs.map Char.toNat = cps := by
  induction cps with
  | nil => exact ⟨[], rfl⟩
  | cons cp cps ih =>
    obtain ⟨hcp, hcps⟩ := List.forall_mem_cons.mp h
    obtain ⟨cs, rfl⟩ := ih hcps
    have hrange := isScalarValue_eq_true_iff.mp hcp
    have hvalid : cp.isValidChar := by
      unfold Nat.isValidChar
      omega
    exact ⟨Char.ofNatAux cp hvalid :: cs, rfl⟩

/-- The reader of the standard library gives back the characters that the encoder has written. -/
theorem utf8Decode?_flatMap_encode (cs : List Char) :
    ((cs.map Char.toNat).flatMap encode).toByteArray.utf8Decode? = some cs.toArray := by
  have hbytes : (cs.map Char.toNat).flatMap encode = cs.flatMap String.utf8EncodeChar := by
    rw [List.flatMap_map]
    exact List.flatMap_congr fun c _ => encode_toNat c
  rw [hbytes]
  exact List.utf8Decode?_utf8Encode

/-- A list of scalar values is written as forms one after the other, each of the shortest length
and of a scalar value, and is read back, also by the standard library. Nothing else consists of
forms; different lists are written differently, and no form begins another one. -/
theorem encode_list :
    (∀ cps : List Nat, (∀ cp ∈ cps, isScalarValue cp = true) →
      WellFormed (cps.flatMap encode) ∧ Forms cps (cps.flatMap encode) ∧
        decode (cps.flatMap encode) = some cps ∧
        ∃ cs : List Char, cs.map Char.toNat = cps ∧
          (cps.flatMap encode).toByteArray.utf8Decode? = some cs.toArray) ∧
      (∀ bs, WellFormed bs →
        ∃ cps : List Nat, (∀ cp ∈ cps, isScalarValue cp = true) ∧ bs = cps.flatMap encode) ∧
      (∀ cps cps' : List Nat, (∀ cp ∈ cps, isScalarValue cp = true) →
        (∀ cp ∈ cps', isScalarValue cp = true) → cps.flatMap encode = cps'.flatMap encode →
          cps = cps') ∧
      ∀ cp cp', isScalarValue cp = true → isScalarValue cp' = true →
        encode cp <+: encode cp' → cp = cp' := by
  refine ⟨fun cps h => ?_, fun bs h => ?_, fun cps cps' h h' hwritten => ?_,
    fun cp cp' => eq_of_encode_prefix⟩
  · have hforms : Forms cps (cps.flatMap encode) := forms_iff.mpr ⟨h, rfl⟩
    obtain ⟨cs, rfl⟩ := exists_chars h
    exact ⟨wellFormed_iff.mpr ⟨_, hforms⟩, hforms, decode_flatMap_encode h, cs, rfl,
      utf8Decode?_flatMap_encode cs⟩
  · obtain ⟨cps, hforms⟩ := wellFormed_iff.mp h
    exact ⟨cps, forms_iff.mp hforms⟩
  · have hread := decode_flatMap_encode h
    rw [hwritten, decode_flatMap_encode h'] at hread
    exact (Option.some.inj hread).symm

/-- The first and the last scalar value of each length, with the neighbours of the surrogates. -/
def boundaryScalars : List Nat :=
  [0, 0x7F, 0x80, 0x7FF, 0x800, 0xD7FF, 0xE000, 0xFFFF, 0x10000, 0x10FFFF]

/-- The boundary values are written with twenty-six bytes and read back. -/
theorem encode_list_boundaries :
    (∀ cp ∈ boundaryScalars, isScalarValue cp = true) ∧
      (boundaryScalars.flatMap encode).length = 26 ∧
      decode (boundaryScalars.flatMap encode) = some boundaryScalars ∧
      ∃ cs : List Char, cs.map Char.toNat = boundaryScalars ∧
        (boundaryScalars.flatMap encode).toByteArray.utf8Decode? = some cs.toArray := by
  have hscalars : ∀ cp ∈ boundaryScalars, isScalarValue cp = true := by decide
  obtain ⟨-, -, hread, hchars⟩ := encode_list.1 boundaryScalars hscalars
  exact ⟨hscalars, by decide, hread, hchars⟩

end JsonTree.Utf8
