import JsonTree.Proofs.Text.Contents

/-!
# Where string contents go wrong

String contents that are not in the grammar go wrong at an escape: up to there they are contents of
the grammar, and there a backslash begins none of its escapes. The reader finds this place, and
tells what is wrong with it. So for every body that was delimited it is settled, by the body alone,
whether it is read, as which text, and with which fault it is refused.

## Main definitions

- `Grammar.OneEscape`: the escapes of the grammar.
- `Grammar.BadEscape`: bytes that begin with a backslash, but with no escape.
- `Grammar.FirstBadEscape`: the first such place in string contents.

## Main statements

- `Body.contents_or`: a body is in the grammar, or it has a first bad escape.
- `Text.read_eq_ok_iff`, `Text.read_eq_error_iff`: what is read of a body, and how it is refused.
-/

namespace JsonTree

open Grammar

namespace Grammar

/-! ## §1 Escapes, good and bad -/

/-- One escape, and the text that it stands for. -/
inductive OneEscape : Bytes → Bytes → Prop where
  | short {letter b : UInt8} :
      (letter, b) ∈ shortEscapes → OneEscape [Byte.backslash, letter] [b]
  | unit {quad : Bytes} {u : Nat} :
      Quad quad u → ¬ (0xD800 ≤ u ∧ u ≤ 0xDFFF) →
      OneEscape (Byte.backslash :: 0x75 :: quad) (Utf8.encode u)
  | pair {quad quad' : Bytes} {high low : Nat} :
      Quad quad high → 0xD800 ≤ high ∧ high ≤ 0xDBFF →
      Quad quad' low → 0xDC00 ≤ low ∧ low ≤ 0xDFFF →
      OneEscape (Byte.backslash :: 0x75 :: quad ++ (Byte.backslash :: 0x75 :: quad'))
        (Utf8.encode (0x10000 + (high - 0xD800) * 0x400 + (low - 0xDC00)))

/-- Bytes that begin with four hexadecimal digits. -/
def BeginsQuad (bs : Bytes) : Prop := ∃ quad u rest, Quad quad u ∧ bs = quad ++ rest

/-- Bytes that begin with a backslash, but with no escape: what is wrong, and how many bytes behind
the backslash. -/
inductive BadEscape : Bytes → Cause → Nat → Prop where
  /-- The letter is not one of the eight, and no `u` either. -/
  | letter {b : UInt8} {bs : Bytes} :
      b ≠ 0x75 → (∀ c, (b, c) ∉ shortEscapes) →
      BadEscape (Byte.backslash :: b :: bs) .invalidEscape 0
  /-- Behind the `u` a digit is wrong or missing. -/
  | digits {bs : Bytes} :
      ¬ BeginsQuad bs → BadEscape (Byte.backslash :: 0x75 :: bs) .invalidUnicodeEscape 2
  /-- The second unit of a pair stands where a first one may. -/
  | low {quad bs : Bytes} {u : Nat} :
      Quad quad u → 0xDC00 ≤ u ∧ u ≤ 0xDFFF →
      BadEscape (Byte.backslash :: 0x75 :: quad ++ bs) .invalidUnicodeEscape 0
  /-- The first unit of a pair stands alone. -/
  | alone {quad bs : Bytes} {high : Nat} :
      Quad quad high → 0xD800 ≤ high ∧ high ≤ 0xDBFF → ¬ [Byte.backslash, 0x75] <+: bs →
      BadEscape (Byte.backslash :: 0x75 :: quad ++ bs) .invalidUnicodeEscape 0
  /-- A digit of the second unit is wrong or missing. -/
  | lowDigits {quad bs : Bytes} {high : Nat} :
      Quad quad high → 0xD800 ≤ high ∧ high ≤ 0xDBFF → ¬ BeginsQuad bs →
      BadEscape (Byte.backslash :: 0x75 :: quad ++ (Byte.backslash :: 0x75 :: bs))
        .invalidUnicodeEscape 8
  /-- Another unit follows the first unit of a pair. -/
  | unpaired {quad quad' bs : Bytes} {high u : Nat} :
      Quad quad high → 0xD800 ≤ high ∧ high ≤ 0xDBFF → Quad quad' u →
      ¬ (0xDC00 ≤ u ∧ u ≤ 0xDFFF) →
      BadEscape (Byte.backslash :: 0x75 :: quad ++ (Byte.backslash :: 0x75 :: quad' ++ bs))
        .invalidUnicodeEscape 0

/-- The first bad escape of string contents: what is wrong, and how far into the contents. -/
inductive FirstBadEscape : Bytes → Cause → Nat → Prop where
  | mk {good text bad : Bytes} {cause : Cause} {k : Nat} :
      Contents good text → BadEscape bad cause k →
      FirstBadEscape (good ++ bad) cause (good.length + k)

variable {bs rest text text' : Bytes} {cause : Cause} {k : Nat}

theorem Contents.append (h : Contents bs text) (h' : Contents rest text') :
    Contents (bs ++ rest) (text ++ text') := by
  induction h with
  | empty => exact h'
  | raw hquote hbackslash _ ih => exact .raw hquote hbackslash ih
  | short hescape _ ih => exact .short hescape ih
  | unit hquad hsurrogate _ ih =>
    simp only [List.append_assoc]
    exact .unit hquad hsurrogate ih
  | pair hquad hhigh hquad' hlow _ ih =>
    simp only [List.append_assoc, List.cons_append]
    exact .pair hquad hhigh hquad' hlow ih

theorem OneEscape.contents (h : OneEscape bs text) : Contents bs text := by
  cases h with
  | short hescape => exact .short hescape .empty
  | unit hquad hsurrogate => simpa using Contents.unit hquad hsurrogate .empty
  | pair hquad hhigh hquad' hlow => simpa using Contents.pair hquad hhigh hquad' hlow .empty

theorem OneEscape.ne_nil (h : OneEscape bs text) : bs ≠ [] := by
  cases h with
  | short _ | unit _ _ | pair _ _ _ _ => exact List.cons_ne_nil _ _

theorem BadEscape.first (h : BadEscape bs cause k) : FirstBadEscape bs cause k := by
  have hfirst := FirstBadEscape.mk .empty h
  rwa [List.nil_append, List.length_nil, Nat.zero_add] at hfirst

/-- Contents of the grammar in front do not change what is the first bad escape. -/
theorem FirstBadEscape.append (h : Contents bs text) (h' : FirstBadEscape rest cause k) :
    FirstBadEscape (bs ++ rest) cause (bs.length + k) := by
  obtain ⟨hgood, hbad⟩ := h'
  rw [← List.append_assoc, ← Nat.add_assoc, ← List.length_append]
  exact .mk (h.append hgood) hbad

end Grammar

/-! ## §2 Bodies -/

/-- A body goes on behind an escape. -/
theorem Body.of_escaped {b : UInt8} {bs : Bytes} (h : Body (Byte.backslash :: b :: bs)) :
    Body bs := by
  cases h with
  | raw _ hbackslash _ => exact absurd rfl hbackslash
  | escaped hbody => exact hbody

/-- A body goes on behind a byte that is no backslash. -/
theorem Body.of_raw {b : UInt8} {bs : Bytes} (hb : b ≠ Byte.backslash) (h : Body (b :: bs)) :
    Body bs := by
  cases h with
  | raw _ _ hbody => exact hbody
  | escaped _ => exact absurd rfl hb

theorem Body.of_plain {run bs : Bytes} (hrun : Plain run) (h : Body (run ++ bs)) : Body bs := by
  induction run with
  | nil => exact h
  | cons b run ih =>
    obtain ⟨hb, hrun⟩ := List.forall_mem_cons.mp hrun
    exact ih hrun (Body.of_raw ((endsRun_eq_false_iff b).mp hb).2 h)

/-- A body goes on behind the escape of a unit. -/
theorem Body.of_unit {quad bs : Bytes} {u : Nat} (hquad : Quad quad u)
    (h : Body (Byte.backslash :: 0x75 :: (quad ++ bs))) : Body bs :=
  Body.of_plain (plain_of_quad hquad) (Body.of_escaped h)

/-- A body goes on behind contents of the grammar. -/
theorem Body.of_contents {good text bs : Bytes} (hgood : Contents good text)
    (h : Body (good ++ bs)) : Body bs := by
  induction hgood with
  | empty => exact h
  | raw _ hbackslash _ ih => exact ih (Body.of_raw hbackslash h)
  | short _ _ ih => exact ih (Body.of_escaped h)
  | unit hquad _ _ ih =>
    simp only [List.cons_append, List.append_assoc] at h
    exact ih (Body.of_unit hquad h)
  | pair hquad _ hquad' _ _ ih =>
    simp only [List.cons_append, List.append_assoc] at h
    exact ih (Body.of_unit hquad' (Body.of_unit hquad h))

/-- What follows a body makes no escape with it: the closing quote is no backslash, and a body does
not end behind one. -/
theorem Body.not_begins {b : UInt8} {bs rest : Bytes} (h : Body bs)
    (hbs : ¬ [Byte.backslash, b] <+: bs) :
    ¬ [Byte.backslash, b] <+: bs ++ Byte.quote :: rest := by
  rintro ⟨tail, htail⟩
  cases h with
  | empty => cases List.head_eq_of_cons_eq htail
  | raw _ hbackslash _ => exact hbackslash (List.head_eq_of_cons_eq htail).symm
  | @escaped c bs _ =>
    obtain rfl : b = c := List.head_eq_of_cons_eq (List.tail_eq_of_cons_eq htail)
    exact hbs ⟨bs, rfl⟩

/-- Behind the escape of a first unit stands that of a second one, or the first one is bad. -/
theorem second_or_badEscape {quad : Bytes} {high : Nat} (hquad : Quad quad high)
    (hhigh : 0xD800 ≤ high ∧ high ≤ 0xDBFF) (bs : Bytes) :
    (∃ quad' low rest, Quad quad' low ∧ (0xDC00 ≤ low ∧ low ≤ 0xDFFF) ∧
        bs = Byte.backslash :: 0x75 :: (quad' ++ rest)) ∨
      ∃ cause k, BadEscape (Byte.backslash :: 0x75 :: quad ++ bs) cause k := by
  by_cases hescape : [Byte.backslash, 0x75] <+: bs
  · obtain ⟨bs, rfl⟩ := hescape
    by_cases hdigits : BeginsQuad bs
    · obtain ⟨quad', low, rest, hquad', rfl⟩ := hdigits
      by_cases hlow : 0xDC00 ≤ low ∧ low ≤ 0xDFFF
      · exact .inl ⟨quad', low, rest, hquad', hlow, rfl⟩
      · exact .inr ⟨_, _, @BadEscape.unpaired quad quad' rest high low hquad hhigh hquad' hlow⟩
    · exact .inr ⟨_, _, .lowDigits hquad hhigh hdigits⟩
  · exact .inr ⟨_, _, .alone hquad hhigh hescape⟩

/-- A backslash in front of another byte begins an escape, or a bad one. -/
theorem escape_or_badEscape (b : UInt8) (bs : Bytes) :
    (∃ escape text rest, OneEscape escape text ∧ Byte.backslash :: b :: bs = escape ++ rest) ∨
      ∃ cause k, BadEscape (Byte.backslash :: b :: bs) cause k := by
  by_cases hletter : ∃ c, (b, c) ∈ shortEscapes
  · obtain ⟨c, hescape⟩ := hletter
    exact .inl ⟨_, _, bs, .short hescape, rfl⟩
  by_cases hunit : b = 0x75
  · subst hunit
    by_cases hdigits : BeginsQuad bs
    · obtain ⟨quad, u, bs, hquad, rfl⟩ := hdigits
      by_cases hlow : 0xDC00 ≤ u ∧ u ≤ 0xDFFF
      · exact .inr ⟨_, _, .low hquad hlow⟩
      by_cases hhigh : 0xD800 ≤ u ∧ u ≤ 0xDBFF
      · rcases second_or_badEscape hquad hhigh bs with ⟨quad', low, rest, hquad', hlow, rfl⟩ | hbad
        · exact .inl ⟨_, _, rest, .pair hquad hhigh hquad' hlow, by simp⟩
        · exact .inr hbad
      · exact .inl ⟨_, _, bs, .unit hquad (by omega), rfl⟩
    · exact .inr ⟨_, _, .digits hdigits⟩
  · exact .inr ⟨_, _, .letter hunit fun c hc => hletter ⟨c, hc⟩⟩

/-- A body is in the grammar, or it has a first bad escape. -/
theorem Body.contents_or {body : Bytes} (h : Body body) :
    (∃ text, Contents body text) ∨ ∃ cause k, FirstBadEscape body cause k := by
  -- An escape of the grammar is longer than the two bytes that a body takes it for, so the
  -- induction is on the length.
  induction hlength : body.length using Nat.strongRecOn generalizing body with
  | ind n ih =>
    -- What begins with contents of the grammar is settled by what follows them.
    have hgoes : ∀ {good text : Bytes} (bs : Bytes), Contents good text → good ≠ [] →
        body = good ++ bs →
          (∃ text, Contents body text) ∨ ∃ cause k, FirstBadEscape body cause k := by
      rintro good text bs hgood hnonempty rfl
      have hpos := List.length_pos_iff.mpr hnonempty
      rw [List.length_append] at hlength
      rcases ih bs.length (by omega) (h.of_contents hgood) rfl with ⟨text', hrest⟩ |
        ⟨cause, k, hbad⟩
      · exact .inl ⟨_, hgood.append hrest⟩
      · exact .inr ⟨cause, _, .append hgood hbad⟩
    cases h with
    | empty => exact .inl ⟨[], .empty⟩
    | @raw b bs hquote hbackslash _ =>
      exact hgoes bs (.raw hquote hbackslash .empty) (List.cons_ne_nil b []) rfl
    | @escaped b bs _ =>
      rcases escape_or_badEscape b bs with ⟨escape, text, rest, hescape, hsplit⟩ | ⟨cause, k, hbad⟩
      · exact hgoes rest hescape.contents hescape.ne_nil hsplit
      · exact .inr ⟨cause, k, hbad.first⟩

/-! ## §3 The reader at a bad escape -/

namespace Escape

variable {offset k : Nat} {bs rest good bad text : Bytes} {cause : Cause}

/-- The first four bytes up to the end of the input, if they are hexadecimal digits, stand before
the closing quote. -/
theorem hex4?_eq_none (h : ¬ BeginsQuad bs) {b₁ b₂ b₃ b₄ : UInt8} {tail : Bytes}
    (hbytes : bs ++ Byte.quote :: rest = b₁ :: b₂ :: b₃ :: b₄ :: tail) :
    hex4? b₁ b₂ b₃ b₄ = none := by
  cases hquad : hex4? b₁ b₂ b₃ b₄ with
  | none => rfl
  | some u =>
    rw [hex4?_eq_some_iff] at hquad
    have hplain := plain_of_quad hquad
    have hsplit : bs ++ Byte.quote :: rest = [b₁, b₂, b₃, b₄] ++ tail := hbytes
    rcases List.append_eq_append_iff.mp hsplit with ⟨more, hmore, htail⟩ | ⟨more, rfl, -⟩
    · cases more with
      | nil =>
        rw [List.append_nil] at hmore
        exact absurd ⟨_, u, [], hquad, by rw [hmore, List.append_nil]⟩ h
      | cons b more =>
        -- The closing quote is no digit.
        obtain rfl : Byte.quote = b := List.head_eq_of_cons_eq htail
        have hquote := hplain Byte.quote (by rw [hmore]; simp)
        cases hquote
    · exact absurd ⟨_, u, more, hquad, rfl⟩ h

theorem letter?_eq_none {b : UInt8} (hletter : ∀ c, (b, c) ∉ shortEscapes) : letter? b = none := by
  cases h : letter? b with
  | none => rfl
  | some c => exact absurd ((letter?_eq_some_iff b c).mp h) (hletter c)

theorem unescape_letter {b : UInt8} (hunit : b ≠ 0x75) (hletter : ∀ c, (b, c) ∉ shortEscapes) :
    unescape offset (Byte.backslash :: b :: rest) = .error ⟨.invalidEscape, offset⟩ := by
  have hbranch : (b != unitLetter) = true := bne_iff_ne.mpr hunit
  rw [unescape.eq_def]
  simp only [hbranch, letter?_eq_none hletter, if_true]
  rfl

/-- Without four digits the fault is at the place for the first one. -/
theorem unescape_digits (h : ¬ BeginsQuad bs) :
    unescape offset (Byte.backslash :: unitLetter :: (bs ++ Byte.quote :: rest)) =
      .error ⟨.invalidUnicodeEscape, offset + 2⟩ := by
  have hnone : ∀ b₁ b₂ b₃ b₄ tail, bs ++ Byte.quote :: rest = b₁ :: b₂ :: b₃ :: b₄ :: tail →
      hex4? b₁ b₂ b₃ b₄ = none := fun _ _ _ _ _ => hex4?_eq_none h
  generalize bs ++ Byte.quote :: rest = input at hnone
  rw [unescape.eq_def]
  rcases input with _ | ⟨b₁, _ | ⟨b₂, _ | ⟨b₃, _ | ⟨b₄, tail⟩⟩⟩⟩
  · rfl
  · rfl
  · rfl
  · rfl
  · simp only [hnone b₁ b₂ b₃ b₄ tail rfl]
    rfl

theorem unescape_low {quad : Bytes} {u : Nat} (hquad : Quad quad u)
    (hlow : 0xDC00 ≤ u ∧ u ≤ 0xDFFF) :
    unescape offset (Byte.backslash :: unitLetter :: (quad ++ rest)) =
      .error ⟨.invalidUnicodeEscape, offset⟩ := by
  have hisLow : isLow u = true := (isLow_eq_true_iff u).mpr hlow
  obtain ⟨b₁, b₂, b₃, b₄, rfl⟩ := exists_bytes_of_quad hquad
  rw [← hex4?_eq_some_iff] at hquad
  rw [unescape.eq_def]
  simp only [List.cons_append, List.nil_append, hquad, hisLow]
  rfl

/-- The first unit of a pair is no second one. -/
theorem isLow_isHigh_of_high {high : Nat} (h : 0xD800 ≤ high ∧ high ≤ 0xDBFF) :
    isLow high = false ∧ isHigh high = true := by
  rw [← Bool.not_eq_true, isLow_eq_true_iff, isHigh_eq_true_iff]
  omega

/-- A first unit without an escape behind it. -/
theorem unescape_alone {quad : Bytes} {high : Nat} (hquad : Quad quad high)
    (hhigh : 0xD800 ≤ high ∧ high ≤ 0xDBFF) (hrest : ¬ [Byte.backslash, unitLetter] <+: rest) :
    unescape offset (Byte.backslash :: unitLetter :: (quad ++ rest)) =
      .error ⟨.invalidUnicodeEscape, offset⟩ := by
  obtain ⟨hnotLow, hisHigh⟩ := isLow_isHigh_of_high hhigh
  obtain ⟨b₁, b₂, b₃, b₄, rfl⟩ := exists_bytes_of_quad hquad
  rw [← hex4?_eq_some_iff] at hquad
  rw [unescape.eq_def]
  simp only [List.cons_append, List.nil_append, hquad, hnotLow, hisHigh]
  rcases rest with _ | ⟨s, _ | ⟨u, rest⟩⟩
  · rfl
  · rfl
  · have hsecond : (s != Byte.backslash || u != unitLetter) = true := by
      by_contra hsecond
      obtain ⟨rfl, rfl⟩ : s = Byte.backslash ∧ u = unitLetter := by simpa using hsecond
      exact hrest ⟨rest, rfl⟩
    simp only [hsecond]
    rfl

/-- The digits of a second unit are looked for behind its escape. -/
theorem unescape_lowDigits {quad : Bytes} {high : Nat} (hquad : Quad quad high)
    (hhigh : 0xD800 ≤ high ∧ high ≤ 0xDBFF) (h : ¬ BeginsQuad bs) :
    unescape offset (Byte.backslash :: unitLetter ::
      (quad ++ (Byte.backslash :: unitLetter :: (bs ++ Byte.quote :: rest)))) =
        .error ⟨.invalidUnicodeEscape, offset + 8⟩ := by
  obtain ⟨hnotLow, hisHigh⟩ := isLow_isHigh_of_high hhigh
  obtain ⟨b₁, b₂, b₃, b₄, rfl⟩ := exists_bytes_of_quad hquad
  rw [← hex4?_eq_some_iff] at hquad
  have hnone : ∀ b₁ b₂ b₃ b₄ tail, bs ++ Byte.quote :: rest = b₁ :: b₂ :: b₃ :: b₄ :: tail →
      hex4? b₁ b₂ b₃ b₄ = none := fun _ _ _ _ _ => hex4?_eq_none h
  generalize bs ++ Byte.quote :: rest = input at hnone
  rw [unescape.eq_def]
  simp only [List.cons_append, List.nil_append, hquad, hnotLow, hisHigh]
  rcases input with _ | ⟨c₁, _ | ⟨c₂, _ | ⟨c₃, _ | ⟨c₄, tail⟩⟩⟩⟩
  · rfl
  · rfl
  · rfl
  · rfl
  · simp only [hnone c₁ c₂ c₃ c₄ tail rfl]
    rfl

/-- A second unit that is none leaves the first one without a pair. -/
theorem unescape_unpaired {quad quad' : Bytes} {high u : Nat} (hquad : Quad quad high)
    (hhigh : 0xD800 ≤ high ∧ high ≤ 0xDBFF) (hquad' : Quad quad' u)
    (hlow : ¬ (0xDC00 ≤ u ∧ u ≤ 0xDFFF)) :
    unescape offset (Byte.backslash :: unitLetter ::
      (quad ++ (Byte.backslash :: unitLetter :: (quad' ++ rest)))) =
        .error ⟨.invalidUnicodeEscape, offset⟩ := by
  obtain ⟨hnotLow, hisHigh⟩ := isLow_isHigh_of_high hhigh
  have hother : isLow u = false := by rwa [← Bool.not_eq_true, isLow_eq_true_iff]
  obtain ⟨b₁, b₂, b₃, b₄, rfl⟩ := exists_bytes_of_quad hquad
  obtain ⟨c₁, c₂, c₃, c₄, rfl⟩ := exists_bytes_of_quad hquad'
  rw [← hex4?_eq_some_iff] at hquad hquad'
  rw [unescape.eq_def]
  simp only [List.cons_append, List.nil_append, hquad, hquad', hnotLow, hisHigh, hother]
  rfl

/-- A bad escape of a body is found where it is. -/
theorem unescape_badEscape (h : BadEscape bad cause k) (hbody : Body bad) (offset : Nat)
    (rest : Bytes) :
    unescape offset (bad ++ Byte.quote :: rest) = .error ⟨cause, offset + k⟩ := by
  cases h with
  | letter hunit hletter => exact unescape_letter hunit hletter
  | digits hdigits => exact unescape_digits hdigits
  | low hquad hlow =>
    rw [List.append_assoc]
    exact unescape_low hquad hlow
  | @alone quad bs high hquad hhigh hescape =>
    rw [List.append_assoc]
    apply unescape_alone hquad hhigh
    rw [List.cons_append, List.cons_append] at hbody
    exact (Body.of_unit hquad hbody).not_begins hescape
  | lowDigits hquad hhigh hdigits =>
    rw [List.append_assoc]
    exact unescape_lowDigits hquad hhigh hdigits
  | unpaired hquad hhigh hquad' hlow =>
    simp only [List.append_assoc, List.cons_append]
    exact unescape_unpaired hquad hhigh hquad' hlow

/-- The first bad escape of a body is where reading fails. -/
theorem unescape_firstBadEscape {body : Bytes} (h : FirstBadEscape body cause k)
    (hbody : Body body) (offset : Nat) (rest : Bytes) :
    unescape offset (body ++ Byte.quote :: rest) = .error ⟨cause, offset + k⟩ := by
  obtain ⟨hgood, hbad⟩ := h
  rw [List.append_assoc, unescape_append hgood, unescape_badEscape hbad (hbody.of_contents hgood),
    Nat.add_assoc]
  rfl

end Escape

/-! ## §4 Strings -/

namespace Text

variable {body : Bytes} {cause : Cause} {k : Nat}

/-- A bad escape is no part of plain contents. -/
theorem read_firstBadEscape (h : FirstBadEscape body cause k) (hbody : Body body) (offset : Nat)
    (rest : Bytes) : read offset (body ++ Byte.quote :: rest) = .error ⟨cause, offset + k⟩ := by
  have hunescape := Escape.unescape_firstBadEscape h hbody offset rest
  rcases read_body hbody offset rest with ⟨hplain, -⟩ | ⟨-, hread⟩
  -- Plain contents would have been unescaped.
  · rw [Escape.unescape_contents (contents_of_plain hplain)] at hunescape
    cases hunescape
  · rw [hread, hunescape]
    rfl

/-- A body is read exactly if it is in the grammar, and then as what it denotes. -/
theorem read_eq_ok_iff (hbody : Body body) (offset : Nat) (rest text : Bytes) :
    (∃ t, read offset (body ++ Byte.quote :: rest) = .ok t ∧ t.bytes = text) ↔
      Contents body text := by
  constructor
  · rintro ⟨t, hread, rfl⟩
    exact contents_of_read hbody hread
  · exact fun h => read_contents h offset rest

/-- A body is refused exactly if it has a bad escape, and the first one is at fault. -/
theorem read_eq_error_iff (hbody : Body body) (offset : Nat) (rest : Bytes) (fault : Fault) :
    read offset (body ++ Byte.quote :: rest) = .error fault ↔
      ∃ k, FirstBadEscape body fault.cause k ∧ fault.offset = offset + k := by
  constructor
  · intro hread
    rcases hbody.contents_or with ⟨text, hcontents⟩ | ⟨cause, k, hbad⟩
    · obtain ⟨t, ht, -⟩ := read_contents hcontents offset rest
      cases ht.symm.trans hread
    · rw [read_firstBadEscape hbad hbody] at hread
      cases hread
      exact ⟨k, hbad, rfl⟩
  · rintro ⟨k, hbad, hoffset⟩
    rw [read_firstBadEscape hbad hbody, ← hoffset]

end Text

/-- Contents have one first bad escape at most. -/
theorem Grammar.FirstBadEscape.eq {body : Bytes} {cause cause' : Cause} {k k' : Nat}
    (hbody : Body body) (h : FirstBadEscape body cause k) (h' : FirstBadEscape body cause' k') :
    cause = cause' ∧ k = k' := by
  have hread := (Text.read_firstBadEscape h hbody 0 []).symm.trans
    (Text.read_firstBadEscape h' hbody 0 [])
  obtain ⟨hcause, hoffset⟩ := Fault.mk.inj (Except.error.inj hread)
  exact ⟨hcause, Nat.add_left_cancel hoffset⟩

end JsonTree
