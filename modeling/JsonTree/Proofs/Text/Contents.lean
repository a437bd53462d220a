import JsonTree.Proofs.Grammar
import JsonTree.Proofs.Result
import JsonTree.Text.Escape

/-!
# Reading string contents

The reader finds the closing quote by itself, and so does the pass that splits the input into
tokens. They agree, because every escape of the grammar is in particular a backslash with a
protected byte after it, and no byte of an escape is an unprotected quote.

## Main definitions

- `Body`: bytes between quotes as they are delimited, each escape a backslash and a byte.

## Main statements

- `Body.eq_of_append`: a body ends at the first unprotected quote.
- `Escape.unescape_append`: contents of the grammar are read, whatever follows them.
- `Escape.contents_of_unescape`, `Escape.unescape_contents`: the reader follows the grammar.
- `Text.contents_of_read`, `Text.read_contents`: a string token is read exactly if its body is in
  the grammar.
-/

namespace JsonTree

open Grammar

/-- Bytes between quotes: a backslash protects the byte after it, and no quote is unprotected. -/
inductive Body : Bytes → Prop where
  | empty : Body []
  | raw {b : UInt8} {bs : Bytes} :
      b ≠ Byte.quote → b ≠ Byte.backslash → Body bs → Body (b :: bs)
  | escaped {b : UInt8} {bs : Bytes} : Body bs → Body (Byte.backslash :: b :: bs)

/-! ## §1 Bodies -/

/-- A body ends at the first unprotected quote. -/
theorem Body.eq_of_append {body body' : Bytes} (h : Body body) (h' : Body body')
    {rest rest' : Bytes} (heq : body ++ Byte.quote :: rest = body' ++ Byte.quote :: rest') :
    body = body' ∧ rest = rest' := by
  -- On both bodies at once: a protected quote in one is protected in the other, because the two
  -- begin with the same bytes.
  induction h generalizing body' with
  | empty =>
    cases h' with
    | empty => exact ⟨rfl, List.tail_eq_of_cons_eq heq⟩
    | raw hquote _ _ => exact absurd (List.head_eq_of_cons_eq heq).symm hquote
    | escaped _ => cases List.head_eq_of_cons_eq heq
  | raw hquote hbackslash _ ih =>
    cases h' with
    | empty => exact absurd (List.head_eq_of_cons_eq heq) hquote
    | raw _ _ hbody =>
      rw [List.cons_append, List.cons_append, List.cons.injEq] at heq
      obtain ⟨rfl, heq⟩ := heq
      obtain ⟨rfl, rfl⟩ := ih hbody heq
      exact ⟨rfl, rfl⟩
    | escaped _ => exact absurd (List.head_eq_of_cons_eq heq) hbackslash
  | escaped _ ih =>
    cases h' with
    | empty => cases List.head_eq_of_cons_eq heq
    | raw _ hbackslash _ => exact absurd (List.head_eq_of_cons_eq heq).symm hbackslash
    | escaped hbody =>
      simp only [List.cons_append, List.cons.injEq, true_and] at heq
      obtain ⟨rfl, heq⟩ := heq
      obtain ⟨rfl, rfl⟩ := ih hbody heq
      exact ⟨rfl, rfl⟩

theorem Body.append {body body' : Bytes} (h : Body body) (h' : Body body') :
    Body (body ++ body') := by
  induction h with
  | empty => exact h'
  | raw hquote hbackslash _ ih => exact .raw hquote hbackslash ih
  | escaped _ ih => exact .escaped ih

/-- Bytes of which none ends a raw run. -/
def Plain (bs : Bytes) : Prop := ∀ b ∈ bs, Byte.endsRun b = false

theorem endsRun_eq_false_iff (b : UInt8) :
    Byte.endsRun b = false ↔ b ≠ Byte.quote ∧ b ≠ Byte.backslash := by
  simp [Byte.endsRun]

theorem Plain.body {bs : Bytes} (h : Plain bs) : Body bs := by
  induction bs with
  | nil => exact .empty
  | cons b bs ih =>
    obtain ⟨hb, hbs⟩ := List.forall_mem_cons.mp h
    obtain ⟨hquote, hbackslash⟩ := (endsRun_eq_false_iff b).mp hb
    exact .raw hquote hbackslash (ih hbs)

/-- A body is plain, or a backslash ends its first run. -/
theorem Body.plain_or {body : Bytes} (h : Body body) :
    Plain body ∨ ∃ run rest, Plain run ∧ body = run ++ Byte.backslash :: rest := by
  induction h with
  | empty => exact .inl fun b hb => absurd hb List.not_mem_nil
  | @raw b _ hquote hbackslash _ ih =>
    have hb : Byte.endsRun b = false := (endsRun_eq_false_iff b).mpr ⟨hquote, hbackslash⟩
    rcases ih with hplain | ⟨run, rest, hrun, rfl⟩
    · exact .inl (List.forall_mem_cons.mpr ⟨hb, hplain⟩)
    · exact .inr ⟨b :: run, rest, List.forall_mem_cons.mpr ⟨hb, hrun⟩, rfl⟩
  | escaped _ _ => exact .inr ⟨[], _, fun b hb => absurd hb List.not_mem_nil, rfl⟩

/-- A body in front of its closing quote begins with a run, and with a byte that ends it. -/
theorem Body.exists_run {body : Bytes} (h : Body body) (rest : Bytes) :
    ∃ run b tail, Plain run ∧ Byte.endsRun b = true ∧ run.length ≤ body.length ∧
      body ++ Byte.quote :: rest = run ++ b :: tail := by
  rcases h.plain_or with hplain | ⟨run, tail, hrun, rfl⟩
  · exact ⟨body, Byte.quote, rest, hplain, by decide, Nat.le_refl _, rfl⟩
  · refine ⟨run, Byte.backslash, tail ++ Byte.quote :: rest, hrun, by decide, ?_, by simp⟩
    rw [List.length_append]
    omega

/-! ## §2 Escapes -/

theorem Escape.hexDigit?_eq_some_iff (b : UInt8) (n : Nat) :
    hexDigit? b = some n ↔ HexDigit b n := by
  constructor
  · have hall : ∀ i : Fin 256, ∀ n ∈ hexDigit? (UInt8.ofNat i),
        (Bytes.ofAscii "0123456789abcdef")[n]? = some (UInt8.ofNat i) ∨
          (Bytes.ofAscii "0123456789ABCDEF")[n]? = some (UInt8.ofNat i) := by decide +kernel
    intro h
    have hb : UInt8.ofNat b.toNat = b := UInt8.ofNat_toNat
    have hdigit := hall ⟨b.toNat, b.toNat_lt⟩ n
    simp only [hb] at hdigit
    exact hdigit h
  · have hlower : ∀ n : Fin 16, ∀ b ∈ (Bytes.ofAscii "0123456789abcdef")[n.val]?,
        hexDigit? b = some n.val := by decide +kernel
    have hupper : ∀ n : Fin 16, ∀ b ∈ (Bytes.ofAscii "0123456789ABCDEF")[n.val]?,
        hexDigit? b = some n.val := by decide +kernel
    rintro (h | h)
    · exact hlower ⟨n, (List.getElem?_eq_some_iff.mp h).1⟩ b h
    · exact hupper ⟨n, (List.getElem?_eq_some_iff.mp h).1⟩ b h

theorem Escape.hex4?_eq_some_iff (b₁ b₂ b₃ b₄ : UInt8) (u : Nat) :
    hex4? b₁ b₂ b₃ b₄ = some u ↔ Quad [b₁, b₂, b₃, b₄] u := by
  constructor
  · intro h
    obtain ⟨n₁, h₁, h⟩ := Option.bind_eq_some_iff.mp h
    obtain ⟨n₂, h₂, h⟩ := Option.bind_eq_some_iff.mp h
    obtain ⟨n₃, h₃, h⟩ := Option.bind_eq_some_iff.mp h
    obtain ⟨n₄, h₄, h⟩ := Option.bind_eq_some_iff.mp h
    cases h
    rw [hexDigit?_eq_some_iff] at h₁ h₂ h₃ h₄
    exact .mk h₁ h₂ h₃ h₄
  · rintro ⟨h₁, h₂, h₃, h₄⟩
    rw [← hexDigit?_eq_some_iff] at h₁ h₂ h₃ h₄
    simp only [hex4?, h₁, h₂, h₃, h₄]
    rfl

theorem Escape.isHigh_eq_true_iff (u : Nat) : isHigh u = true ↔ 0xD800 ≤ u ∧ u ≤ 0xDBFF := by
  simp [isHigh]

theorem Escape.isLow_eq_true_iff (u : Nat) : isLow u = true ↔ 0xDC00 ≤ u ∧ u ≤ 0xDFFF := by
  simp [isLow]

/-- The units that belong to no pair are those outside both halves of the surrogates. -/
theorem Escape.not_surrogate_iff (u : Nat) :
    ¬ (0xD800 ≤ u ∧ u ≤ 0xDFFF) ↔ isHigh u = false ∧ isLow u = false := by
  rw [← Bool.not_eq_true, ← Bool.not_eq_true, isHigh_eq_true_iff, isLow_eq_true_iff]
  omega

theorem exists_bytes_of_quad {quad : Bytes} {u : Nat} (h : Quad quad u) :
    ∃ b₁ b₂ b₃ b₄, quad = [b₁, b₂, b₃, b₄] := by
  obtain ⟨_, _, _, _⟩ := h
  exact ⟨_, _, _, _, rfl⟩

theorem Escape.letter?_eq_some_iff (letter b : UInt8) :
    letter? letter = some b ↔ (letter, b) ∈ shortEscapes := by
  constructor
  · have hall : ∀ i : Fin 256, ∀ b ∈ letter? (UInt8.ofNat i),
        (UInt8.ofNat i, b) ∈ shortEscapes := by decide +kernel
    have hletter : UInt8.ofNat letter.toNat = letter := UInt8.ofNat_toNat
    have hescape := hall ⟨letter.toNat, letter.toNat_lt⟩ b
    simp only [hletter] at hescape
    exact hescape
  · have hall : ∀ e ∈ shortEscapes, letter? e.1 = some e.2 :=
      List.all_iff_forall_prop.mp (by decide +kernel)
    exact hall (letter, b)

theorem Escape.ne_unitLetter {letter b : UInt8} (h : (letter, b) ∈ shortEscapes) :
    letter ≠ unitLetter := by
  have hall : ∀ e ∈ shortEscapes, (e.1 != unitLetter) = true :=
    List.all_iff_forall_prop.mp (by decide)
  exact bne_iff_ne.mp (hall _ h)

/-- What holds of the hexadecimal digits of either case holds of four of them. -/
theorem Grammar.Quad.forall_mem {P : UInt8 → Prop} {quad : Bytes} {u : Nat} (h : Quad quad u)
    (hall : ∀ b ∈ Bytes.ofAscii "0123456789abcdef" ++ Bytes.ofAscii "0123456789ABCDEF", P b) :
    ∀ b ∈ quad, P b := by
  have hdigit : ∀ {b : UInt8} {n : Nat}, HexDigit b n → P b := by
    rintro b n (hb | hb)
    · exact hall b (List.mem_append_left _ (List.mem_of_getElem? hb))
    · exact hall b (List.mem_append_right _ (List.mem_of_getElem? hb))
  obtain ⟨h₁, h₂, h₃, h₄⟩ := h
  simp only [List.forall_mem_cons]
  exact ⟨hdigit h₁, hdigit h₂, hdigit h₃, hdigit h₄, List.forall_mem_nil _⟩

/-- A hexadecimal digit is neither a quote nor a backslash. -/
theorem plain_of_quad {quad : Bytes} {u : Nat} (h : Quad quad u) : Plain quad :=
  h.forall_mem (List.all_iff_forall_prop.mp (by decide))

/-! ## §3 Contents -/

/-- Contents of the grammar are a body. -/
theorem body_of_contents {contents text : Bytes} (h : Contents contents text) : Body contents := by
  induction h with
  | empty => exact .empty
  | raw hquote hbackslash _ ih => exact .raw hquote hbackslash ih
  | short _ _ ih => exact .escaped ih
  | unit hquad _ _ ih => exact .escaped ((plain_of_quad hquad).body.append ih)
  | pair hquad _ hquad' _ _ ih =>
    exact .escaped ((plain_of_quad hquad).body.append
      (.escaped ((plain_of_quad hquad').body.append ih)))

/-- Plain contents stand for themselves. -/
theorem contents_of_plain {bs : Bytes} (h : Plain bs) : Contents bs bs := by
  induction bs with
  | nil => exact .empty
  | cons b bs ih =>
    obtain ⟨hb, hbs⟩ := List.forall_mem_cons.mp h
    obtain ⟨hquote, hbackslash⟩ := (endsRun_eq_false_iff b).mp hb
    exact .raw hquote hbackslash (ih hbs)

namespace Escape

variable {offset : Nat} {rest : Bytes}

theorem unescape_quote : unescape offset (Byte.quote :: rest) = .ok ([], Byte.quote :: rest) := by
  rw [unescape.eq_def]
  rfl

theorem unescape_raw {b : UInt8} (hquote : b ≠ Byte.quote) (hbackslash : b ≠ Byte.backslash) :
    unescape offset (b :: rest) =
      (unescape (offset + 1) rest).map fun (text, rest) => (b :: text, rest) := by
  rw [unescape.eq_def]
  simp only [beq_eq_false_iff_ne.mpr hquote, bne_iff_ne.mpr hbackslash, if_true, Bool.false_eq_true,
    if_false]
  cases unescape (offset + 1) rest <;> rfl

theorem unescape_short {letter b : UInt8} (h : (letter, b) ∈ shortEscapes) :
    unescape offset (Byte.backslash :: letter :: rest) =
      (unescape (offset + 2) rest).map fun (text, rest) => (b :: text, rest) := by
  have hletter : (letter != unitLetter) = true := bne_iff_ne.mpr (ne_unitLetter h)
  rw [← letter?_eq_some_iff] at h
  rw [unescape.eq_def]
  simp only [hletter, h, if_true]
  cases unescape (offset + 2) rest <;> rfl

theorem unescape_unit {quad : Bytes} {u : Nat} (hquad : Quad quad u)
    (hsurrogate : ¬ (0xD800 ≤ u ∧ u ≤ 0xDFFF)) :
    unescape offset (Byte.backslash :: unitLetter :: (quad ++ rest)) =
      (unescape (offset + 6) rest).map fun (text, rest) => (Utf8.encode u ++ text, rest) := by
  obtain ⟨hhigh, hlow⟩ := (not_surrogate_iff u).mp hsurrogate
  obtain ⟨b₁, b₂, b₃, b₄, rfl⟩ := exists_bytes_of_quad hquad
  rw [← hex4?_eq_some_iff] at hquad
  rw [unescape.eq_def]
  simp only [List.cons_append, List.nil_append, hquad, hlow, hhigh]
  cases unescape (offset + 6) rest <;> rfl

theorem unescape_pair {quad quad' : Bytes} {high low : Nat} (hquad : Quad quad high)
    (hhigh : 0xD800 ≤ high ∧ high ≤ 0xDBFF) (hquad' : Quad quad' low)
    (hlow : 0xDC00 ≤ low ∧ low ≤ 0xDFFF) :
    unescape offset (Byte.backslash :: unitLetter :: (quad ++
      (Byte.backslash :: unitLetter :: (quad' ++ rest)))) =
        (unescape (offset + 12) rest).map fun (text, rest) =>
          (Utf8.encode (ofPair high low) ++ text, rest) := by
  -- The reader asks for a low half first, because such a unit is wrong in this place.
  have hnotLow : isLow high = false := by
    rw [← Bool.not_eq_true, isLow_eq_true_iff]
    omega
  have hisHigh : isHigh high = true := (isHigh_eq_true_iff high).mpr hhigh
  have hisLow : isLow low = true := (isLow_eq_true_iff low).mpr hlow
  obtain ⟨b₁, b₂, b₃, b₄, rfl⟩ := exists_bytes_of_quad hquad
  obtain ⟨c₁, c₂, c₃, c₄, rfl⟩ := exists_bytes_of_quad hquad'
  rw [← hex4?_eq_some_iff] at hquad hquad'
  rw [unescape.eq_def]
  simp only [List.cons_append, List.nil_append, hquad, hquad', hnotLow, hisHigh, hisLow]
  cases unescape (offset + 12) rest <;> rfl

/-- Contents of the grammar in front are read, whatever follows them. -/
theorem unescape_append {contents text : Bytes} (h : Contents contents text) (offset : Nat)
    (rest : Bytes) :
    unescape offset (contents ++ rest) =
      (unescape (offset + contents.length) rest).map fun p => (text ++ p.1, p.2) := by
  induction h generalizing offset with
  | empty =>
    rw [List.nil_append, List.length_nil, Nat.add_zero]
    cases unescape offset rest <;> rfl
  | raw hquote hbackslash _ ih =>
    rw [List.cons_append, unescape_raw hquote hbackslash, ih, List.length_cons,
      Nat.add_right_comm, Nat.add_assoc]
    cases unescape _ rest <;> rfl
  | @short _ _ bs _ hescape _ ih =>
    have hoffset : offset + (bs.length + 1 + 1) = offset + 2 + bs.length := by omega
    rw [List.cons_append, List.cons_append, unescape_short hescape, ih, List.length_cons,
      List.length_cons, hoffset]
    cases unescape _ rest <;> rfl
  | @unit quad bs text u hquad hsurrogate _ ih =>
    have hoffset : offset + (Byte.backslash :: 0x75 :: quad ++ bs).length =
        offset + 6 + bs.length := by
      obtain ⟨_, _, _, _, rfl⟩ := exists_bytes_of_quad hquad
      simp only [List.length_append, List.length_cons, List.length_nil]
      omega
    rw [hoffset]
    simp only [List.cons_append, List.append_assoc]
    rw [unescape_unit hquad hsurrogate, ih]
    cases unescape (offset + 6 + bs.length) rest <;> simp only [Except.map]
  | @pair quad quad' bs text high low hquad hhigh hquad' hlow _ ih =>
    have hoffset : offset +
        (Byte.backslash :: 0x75 :: quad ++ (Byte.backslash :: 0x75 :: quad' ++ bs)).length =
          offset + 12 + bs.length := by
      obtain ⟨_, _, _, _, rfl⟩ := exists_bytes_of_quad hquad
      obtain ⟨_, _, _, _, rfl⟩ := exists_bytes_of_quad hquad'
      simp only [List.length_append, List.length_cons, List.length_nil]
      omega
    rw [hoffset]
    simp only [List.cons_append, List.append_assoc]
    have hpoint : 0x10000 + (high - 0xD800) * 0x400 + (low - 0xDC00) = ofPair high low := rfl
    rw [unescape_pair hquad hhigh hquad' hlow, ih, hpoint]
    cases unescape (offset + 12 + bs.length) rest <;> simp only [Except.map]

/-- Contents of the grammar are unescaped up to the closing quote. -/
theorem unescape_contents {contents text : Bytes} (h : Contents contents text) (offset : Nat)
    (rest : Bytes) : unescape offset (contents ++ Byte.quote :: rest) =
      .ok (text, Byte.quote :: rest) := by
  rw [unescape_append h, unescape_quote]
  simp only [Except.map, List.append_nil]

/-- Contents denote one text. -/
theorem contents_unique {contents text text' : Bytes} (h : Contents contents text)
    (h' : Contents contents text') : text = text' := by
  have heq := (unescape_contents h 0 []).symm.trans (unescape_contents h' 0 [])
  cases heq
  rfl

/-- What is unescaped is contents of the grammar, up to a quote. -/
theorem contents_of_unescape {input text rest : Bytes}
    (h : unescape offset input = .ok (text, rest)) :
    ∃ contents tail, input = contents ++ Byte.quote :: tail ∧ Contents contents text := by
  -- The cases that are named give a text; all others report a fault.
  fun_induction unescape offset input generalizing text rest with
  | case2 offset b rest hquote =>
    obtain rfl := eq_of_beq hquote
    cases h
    exact ⟨[], rest, rfl, .empty⟩
  | case3 offset b rest hquote hbackslash ih =>
    obtain ⟨⟨text', rest'⟩, hrest, h⟩ := bind_eq_ok_iff.mp h
    cases h
    obtain ⟨contents, tail, rfl, hcontents⟩ := ih hrest
    exact ⟨b :: contents, tail, rfl,
      .raw (by simpa using hquote) (by simpa using hbackslash) hcontents⟩
  | case6 offset b hquote hbackslash letter rest hletter x hx ih =>
    obtain ⟨⟨text', rest'⟩, hrest, h⟩ := bind_eq_ok_iff.mp h
    cases h
    obtain ⟨contents, tail, rfl, hcontents⟩ := ih hrest
    obtain rfl : b = Byte.backslash := by simpa using hbackslash
    rw [letter?_eq_some_iff] at hx
    exact ⟨Byte.backslash :: letter :: contents, tail, rfl, .short hx hcontents⟩
  | case9 offset b hquote hbackslash c hc b₁ b₂ b₃ b₄ rest u hquad hlow hhigh ih =>
    obtain ⟨⟨text', rest'⟩, hrest, h⟩ := bind_eq_ok_iff.mp h
    obtain ⟨rfl, rfl⟩ := Prod.mk.inj (Except.ok.inj h)
    obtain ⟨contents, tail, rfl, hcontents⟩ := ih hrest
    obtain rfl : b = Byte.backslash := by simpa using hbackslash
    obtain rfl : c = unitLetter := by simpa using hc
    rw [hex4?_eq_some_iff] at hquad
    have hsurrogate : ¬ (0xD800 ≤ u ∧ u ≤ 0xDFFF) :=
      (not_surrogate_iff u).mpr ⟨by simpa using hhigh, by simpa using hlow⟩
    exact ⟨_, tail, rfl, .unit hquad hsurrogate hcontents⟩
  | case13 offset b hquote hbackslash c hc b₁ b₂ b₃ b₄ high hquad hlow hhigh s u hsecond
      c₁ c₂ c₃ c₄ rest low hquad' hlow' ih =>
    obtain ⟨⟨text', rest'⟩, hrest, h⟩ := bind_eq_ok_iff.mp h
    obtain ⟨rfl, rfl⟩ := Prod.mk.inj (Except.ok.inj h)
    obtain ⟨contents, tail, rfl, hcontents⟩ := ih hrest
    obtain rfl : b = Byte.backslash := by simpa using hbackslash
    obtain rfl : c = unitLetter := by simpa using hc
    obtain ⟨rfl, rfl⟩ : s = Byte.backslash ∧ u = unitLetter := by simpa using hsecond
    rw [hex4?_eq_some_iff] at hquad hquad'
    rw [Bool.not_eq_true', Bool.not_eq_false, isHigh_eq_true_iff] at hhigh
    rw [Bool.not_eq_true', Bool.not_eq_false, isLow_eq_true_iff] at hlow'
    exact ⟨_, tail, rfl, .pair hquad hhigh hquad' hlow' hcontents⟩
  | _ => cases h

end Escape

/-! ## §4 Strings -/

theorem takeRun_append {run : Bytes} (hrun : Plain run) {b : UInt8}
    (hb : Byte.endsRun b = true) (rest : Bytes) :
    Bytes.takeRun (run ++ b :: rest) = run ∧ Bytes.skipRun (run ++ b :: rest) = b :: rest := by
  have hall : ∀ c ∈ run, (! Byte.endsRun c) = true := fun c hc => by rw [hrun c hc]; rfl
  constructor
  · rw [Bytes.takeRun, List.takeWhile_append_of_pos hall, List.takeWhile_cons, hb]
    exact List.append_nil run
  · rw [Bytes.skipRun, List.dropWhile_append_of_pos hall, List.dropWhile_cons, hb]
    rfl

namespace Text

/-- A plain body is borrowed as it stands; any other body is unescaped. -/
theorem read_body {body : Bytes} (h : Body body) (offset : Nat) (rest : Bytes) :
    (Plain body ∧ read offset (body ++ Byte.quote :: rest) = .ok (.borrowed body)) ∨
      (¬ Plain body ∧ read offset (body ++ Byte.quote :: rest) =
        (Escape.unescape offset (body ++ Byte.quote :: rest)).map fun p => .owned p.1) := by
  rcases h.plain_or with hplain | ⟨run, more, hrun, rfl⟩
  · left
    obtain ⟨htake, hskip⟩ := takeRun_append hplain (by decide : Byte.endsRun Byte.quote = true) rest
    refine ⟨hplain, ?_⟩
    unfold read
    rw [hskip, htake]
    rfl
  · right
    obtain ⟨-, hskip⟩ := takeRun_append hrun (by decide : Byte.endsRun Byte.backslash = true)
      (more ++ Byte.quote :: rest)
    constructor
    · intro hplain
      have hbackslash := hplain Byte.backslash (by simp)
      cases hbackslash
    · unfold read
      rw [List.append_assoc, List.cons_append, hskip]
      simp only [show (Byte.backslash == Byte.quote) = false from rfl, Bool.false_eq_true, if_false]
      cases Escape.unescape offset (run ++ Byte.backslash :: (more ++ Byte.quote :: rest)) <;> rfl

/-- What is read of a body is the text that its contents denote. -/
theorem contents_of_read {body rest : Bytes} {offset : Nat} {t : Text} (h : Body body)
    (hread : read offset (body ++ Byte.quote :: rest) = .ok t) : Contents body t.bytes := by
  rcases read_body h offset rest with ⟨hplain, hborrowed⟩ | ⟨-, howned⟩
  · rw [hborrowed] at hread
    cases hread
    exact contents_of_plain hplain
  · rw [howned] at hread
    obtain ⟨⟨text, rest'⟩, hunescape, htext⟩ := map_eq_ok_iff.mp hread
    cases htext
    obtain ⟨contents, tail, heq, hcontents⟩ := Escape.contents_of_unescape hunescape
    -- The reader went up to some quote. It is the quote that ends the body.
    obtain ⟨rfl, -⟩ := h.eq_of_append (body_of_contents hcontents) heq
    exact hcontents

/-- Contents of the grammar are read as the text that they denote. -/
theorem read_contents {contents text : Bytes} (h : Contents contents text) (offset : Nat)
    (rest : Bytes) :
    ∃ t, read offset (contents ++ Byte.quote :: rest) = .ok t ∧ t.bytes = text := by
  rcases read_body (body_of_contents h) offset rest with ⟨hplain, hborrowed⟩ | ⟨-, howned⟩
  -- Plain contents are not unescaped, but unescaping them would have given the same.
  · exact ⟨.borrowed contents, hborrowed, Escape.contents_unique (contents_of_plain hplain) h⟩
  · rw [Escape.unescape_contents h] at howned
    exact ⟨.owned text, howned, rfl⟩

end Text

end JsonTree
