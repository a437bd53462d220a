import JsonTree.Proofs.Text.Contents
import JsonTree.Proofs.Utf8

/-!
# Characters as escapes

Every character can be written with escapes only: one unit of UTF-16 where it has one, and a pair
of units otherwise. String contents of this kind denote the UTF-8 form of the characters.

## Main definitions

- `Grammar.CharEscape`, `Grammar.CharEscapes`: characters, written as escapes.

## Main statements

- `Utf8.encode_toNat`: the encoder agrees with that of the standard library.
- `Grammar.exists_charEscapes`: every list of characters can be written as escapes.
- `Grammar.contents_of_charEscapes`: and it denotes their UTF-8 form.
-/

namespace JsonTree

/-! ## §1 The form of a character -/

/-- A character is a scalar value, and the encoder writes it as the standard library does. -/
theorem Utf8.encode_toNat (c : Char) : encode c.toNat = String.utf8EncodeChar c := by
  have hvalid : c.toNat < 0xD800 ∨ 0xDFFF < c.toNat ∧ c.toNat < 0x110000 := c.valid
  have hlast : c.toNat ≤ 0x10FFFF := by omega
  have hval : c.val.toNat = c.toNat := rfl
  have hle : ∀ n, (c.toNat ≤ n) = (c.toNat < n + 1) := fun n => propext Nat.lt_succ_iff.symm
  -- Both writers choose the length at the same bounds.
  unfold encode String.utf8EncodeChar continuation
  rw [if_pos hlast]
  simp only [hval, hle, Nat.reduceAdd, Nat.shiftRight_eq_div_pow, Nat.reduceMul, Nat.reducePow]
  split_ifs with hone htwo hthree
  · rfl
  · simp only [List.cons.injEq, and_true]
    exact ⟨congrArg _ (by omega), congrArg _ (by omega)⟩
  · simp only [List.cons.injEq, and_true]
    exact ⟨congrArg _ (by omega), congrArg _ (by omega), congrArg _ (by omega)⟩
  · simp only [List.cons.injEq, and_true]
    exact ⟨congrArg _ (by omega), congrArg _ (by omega), congrArg _ (by omega),
      congrArg _ (by omega)⟩

namespace Grammar

/-! ## §2 Escapes of characters -/

/-- A character, written as the escape of its unit or of its pair of units. -/
inductive CharEscape (c : Char) : Bytes → Prop where
  | unit {quad : Bytes} : Quad quad c.toNat → CharEscape c (Byte.backslash :: 0x75 :: quad)
  | pair {quad quad' : Bytes} :
      0x10000 ≤ c.toNat → Quad quad (0xD800 + (c.toNat - 0x10000) / 0x400) →
      Quad quad' (0xDC00 + (c.toNat - 0x10000) % 0x400) →
      CharEscape c (Byte.backslash :: 0x75 :: quad ++ (Byte.backslash :: 0x75 :: quad'))

/-- Characters, written as escapes one after the other. -/
inductive CharEscapes : List Char → Bytes → Prop where
  | nil : CharEscapes [] []
  | cons {c : Char} {cs : List Char} {bs rest : Bytes} :
      CharEscape c bs → CharEscapes cs rest → CharEscapes (c :: cs) (bs ++ rest)

theorem exists_hexDigit {n : Nat} (h : n < 16) : ∃ b, HexDigit b n :=
  ⟨(Bytes.ofAscii "0123456789abcdef")[n], .inl (List.getElem?_eq_getElem h)⟩

/-- Every unit is spelled by some digits. -/
theorem exists_quad {u : Nat} (h : u < 0x10000) : ∃ quad, Quad quad u := by
  obtain ⟨b₁, h₁⟩ := exists_hexDigit (by omega : u / 0x1000 < 16)
  obtain ⟨b₂, h₂⟩ := exists_hexDigit (by omega : u / 0x100 % 16 < 16)
  obtain ⟨b₃, h₃⟩ := exists_hexDigit (by omega : u / 0x10 % 16 < 16)
  obtain ⟨b₄, h₄⟩ := exists_hexDigit (by omega : u % 16 < 16)
  have hu : ((u / 0x1000 * 16 + u / 0x100 % 16) * 16 + u / 0x10 % 16) * 16 + u % 16 = u := by
    omega
  exact ⟨[b₁, b₂, b₃, b₄], hu ▸ .mk h₁ h₂ h₃ h₄⟩

theorem exists_charEscape (c : Char) : ∃ bs, CharEscape c bs := by
  have hvalid : c.toNat < 0xD800 ∨ 0xDFFF < c.toNat ∧ c.toNat < 0x110000 := c.valid
  by_cases hunit : c.toNat < 0x10000
  · obtain ⟨quad, hquad⟩ := exists_quad hunit
    exact ⟨_, .unit hquad⟩
  · obtain ⟨quad, hquad⟩ := exists_quad
      (by omega : 0xD800 + (c.toNat - 0x10000) / 0x400 < 0x10000)
    obtain ⟨quad', hquad'⟩ := exists_quad
      (by omega : 0xDC00 + (c.toNat - 0x10000) % 0x400 < 0x10000)
    exact ⟨_, .pair (by omega) hquad hquad'⟩

/-- Every list of characters can be written as escapes. -/
theorem exists_charEscapes (cs : List Char) : ∃ bs, CharEscapes cs bs := by
  induction cs with
  | nil => exact ⟨[], .nil⟩
  | cons c cs ih =>
    obtain ⟨bs, hbs⟩ := exists_charEscape c
    obtain ⟨rest, hrest⟩ := ih
    exact ⟨bs ++ rest, .cons hbs hrest⟩

/-- A character in front of contents, written as escapes. -/
theorem contents_of_charEscape {c : Char} {bs rest text : Bytes} (h : CharEscape c bs)
    (hrest : Contents rest text) : Contents (bs ++ rest) (String.utf8EncodeChar c ++ text) := by
  have hvalid : c.toNat < 0xD800 ∨ 0xDFFF < c.toNat ∧ c.toNat < 0x110000 := c.valid
  rw [← Utf8.encode_toNat]
  cases h with
  | unit hquad => exact .unit hquad (by omega) hrest
  | @pair quad quad' hlarge hquad hquad' =>
    -- The two halves are put together again.
    have hpoint : 0x10000 + (0xD800 + (c.toNat - 0x10000) / 0x400 - 0xD800) * 0x400 +
        (0xDC00 + (c.toNat - 0x10000) % 0x400 - 0xDC00) = c.toNat := by omega
    have hpair := Contents.pair hquad (by omega) hquad' (by omega) hrest
    rw [hpoint] at hpair
    simpa using hpair

/-- Characters written as escapes denote their UTF-8 form. -/
theorem contents_of_charEscapes {cs : List Char} {bs : Bytes} (h : CharEscapes cs bs) :
    Contents bs (cs.flatMap String.utf8EncodeChar) := by
  induction h with
  | nil => exact .empty
  | cons hc _ ih => exact contents_of_charEscape hc ih

end Grammar

end JsonTree
