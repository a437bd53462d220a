import JsonTree.Proofs.Decode.Trees
import JsonTree.Proofs.Utf8
import JsonTree.Proofs.Value.Changes

/-!
# Well-formed text from well-formed input

Nothing checks that the input is UTF-8, but nothing breaks it either. What stands between two
quotes, between two escapes or between a value and the whitespace around it is cut out at bytes
below `0x80`, and there well-formed input can be cut. An escape is replaced by the form of a scalar
value, because units of surrogates are taken in pairs only.

## Main statements

- `Grammar.Contents.wellFormed`: string contents denote well-formed text.
- `Grammar.Spells.wellFormed`: so do all strings and keys of a tree that the grammar denotes.
- `decode_wellFormed`: all strings and keys of a decoded tree are well formed if the input is.
-/

namespace JsonTree

open Utf8 (Ascii wellFormed_append_cons_iff wellFormed_cons_iff)

namespace Grammar

/-! ## §1 Bytes below `0x80` -/

theorem Blank.ascii {bs : Bytes} (h : Blank bs) : Ascii bs := by
  intro b hb
  have hwhite := h b hb
  simp only [Byte.isWhitespace, Bool.or_eq_true, beq_iff_eq] at hwhite
  rcases hwhite with ((rfl | rfl) | rfl) | rfl <;> decide

theorem Quad.ascii {quad : Bytes} {u : Nat} (h : Quad quad u) : Ascii quad :=
  h.forall_mem (List.all_iff_forall_prop.mp (by decide))

/-- The letter of a short escape, and the byte that it stands for. -/
theorem ascii_of_shortEscape {letter b : UInt8} (h : (letter, b) ∈ shortEscapes) :
    letter < 0x80 ∧ b < 0x80 := by
  have hall : ∀ e ∈ shortEscapes, e.1 < 0x80 ∧ e.2 < 0x80 :=
    List.all_iff_forall_prop.mp (by decide)
  exact hall _ h

/-! ## §2 Strings -/

theorem Quad.lt {quad : Bytes} {u : Nat} (h : Quad quad u) : u < 0x10000 := by
  have hdigit : ∀ {b : UInt8} {n : Nat}, HexDigit b n → n < 16 := by
    rintro b n (hb | hb)
    · exact (List.getElem?_eq_some_iff.mp hb).1
    · exact (List.getElem?_eq_some_iff.mp hb).1
  obtain ⟨h₁, h₂, h₃, h₄⟩ := h
  have := hdigit h₁
  have := hdigit h₂
  have := hdigit h₃
  have := hdigit h₄
  omega

/-- Around the escape of a unit the input can be cut. -/
theorem Quad.wellFormed_append_iff {quad rest : Bytes} {u : Nat} (h : Quad quad u) (pre : Bytes) :
    Utf8.WellFormed (pre ++ (Byte.backslash :: 0x75 :: quad ++ rest)) ↔
      Utf8.WellFormed pre ∧ Utf8.WellFormed rest := by
  rw [List.cons_append, List.cons_append, wellFormed_append_cons_iff (by decide),
    wellFormed_cons_iff (by decide), h.ascii.wellFormed_append_iff]

/-- Well-formed contents denote well-formed text, also behind other bytes. -/
theorem Contents.wellFormed_append {contents text : Bytes} (h : Contents contents text)
    (pre : Bytes) (hwhole : Utf8.WellFormed (pre ++ contents)) : Utf8.WellFormed (pre ++ text) := by
  -- Raw bytes are moved to the front until the next escape, because a cut between two of them may
  -- go through a form.
  induction h generalizing pre with
  | empty => exact hwhole
  | raw _ _ _ ih =>
    rw [List.append_cons] at hwhole ⊢
    exact ih _ hwhole
  | short hescape _ ih =>
    obtain ⟨hletter, hb⟩ := ascii_of_shortEscape hescape
    rw [wellFormed_append_cons_iff (by decide), wellFormed_cons_iff hletter] at hwhole
    obtain ⟨hpre, hrest⟩ := hwhole
    exact (wellFormed_append_cons_iff hb).mpr ⟨hpre, ih [] hrest⟩
  | @unit _ _ _ u hquad hsurrogate _ ih =>
    obtain ⟨hpre, hrest⟩ := (hquad.wellFormed_append_iff pre).mp hwhole
    have hlt := hquad.lt
    have hscalar : Utf8.isScalarValue u = true := by
      rw [Utf8.isScalarValue_eq_true_iff]
      omega
    exact hpre.append ((Utf8.wellFormed_encode hscalar).append (ih [] hrest))
  | @pair _ _ _ _ high low hquad hhigh hquad' hlow _ ih =>
    obtain ⟨hpre, hrest⟩ := (hquad.wellFormed_append_iff pre).mp hwhole
    obtain ⟨-, hrest⟩ := (hquad'.wellFormed_append_iff []).mp hrest
    have hscalar : Utf8.isScalarValue (0x10000 + (high - 0xD800) * 0x400 + (low - 0xDC00)) =
        true := by
      rw [Utf8.isScalarValue_eq_true_iff]
      omega
    exact hpre.append ((Utf8.wellFormed_encode hscalar).append (ih [] hrest))

/-- Well-formed contents denote well-formed text. -/
theorem Contents.wellFormed {contents text : Bytes} (h : Contents contents text)
    (hcontents : Utf8.WellFormed contents) : Utf8.WellFormed text :=
  h.wellFormed_append [] hcontents

/-- The contents of a string can be cut out. -/
theorem wellFormed_of_quoted {contents : Bytes} (h : Utf8.WellFormed (quoted contents)) :
    Utf8.WellFormed contents := by
  rw [quoted, List.cons_append, wellFormed_cons_iff (by decide)] at h
  exact ((wellFormed_append_cons_iff (by decide)).mp h).1

theorem wellFormed_of_padded {before bs after : Bytes} (hbefore : Blank before)
    (hafter : Blank after)
    (h : Utf8.WellFormed (before ++ (bs ++ after))) : Utf8.WellFormed bs :=
  hafter.ascii.wellFormed_of_append (hbefore.ascii.wellFormed_append_iff.mp h)

theorem Key.wellFormed {bs text : Bytes} (h : Key bs text) (hbs : Utf8.WellFormed bs) :
    Utf8.WellFormed text := by
  obtain ⟨hbefore, hcontents, hafter⟩ := h
  exact hcontents.wellFormed (wellFormed_of_quoted (wellFormed_of_padded hbefore hafter hbs))

/-- What stands between two brackets can be cut out. -/
theorem wellFormed_of_bracketed {opening closing : UInt8} {bs : Bytes}
    (hopening : opening < 0x80) (hclosing : closing < 0x80)
    (h : Utf8.WellFormed (opening :: bs ++ [closing])) : Utf8.WellFormed bs := by
  rw [List.cons_append, wellFormed_cons_iff hopening] at h
  exact ((wellFormed_append_cons_iff hclosing).mp h).1

/-! ## §3 Trees -/

mutual

/-- All strings and keys of a tree that the grammar denotes are well formed if the bytes are. -/
theorem Spells.wellFormed {depth : Nat} {bs : Bytes} {v : Value} (h : Spells depth bs v) :
    Utf8.WellFormed bs → v.EveryText fun t => Utf8.WellFormed t.bytes := by
  cases h with
  | null | true | false => exact fun _ => Value.everyText_of_nesting rfl nofun
  | @number _ _ _ n _ _ => cases n <;> exact fun _ => Value.everyText_of_nesting rfl nofun
  | string hcontents =>
    intro hbs
    exact (Value.everyText_string_iff _).mpr (hcontents.wellFormed (wellFormed_of_quoted hbs))
  | emptyArray => exact fun _ => Value.everyText_array_iff.mpr nofun
  | emptyObject => exact fun _ => Value.everyText_object_iff.mpr nofun
  | array helements =>
    intro hbs
    have hinner := wellFormed_of_bracketed (by decide) (by decide) hbs
    exact Value.everyText_array_iff.mpr (helements.wellFormed hinner)
  | object hmembers =>
    intro hbs
    have hinner := wellFormed_of_bracketed (by decide) (by decide) hbs
    have hrows := hmembers.wellFormed hinner
    exact Value.everyText_object_iff.mpr fun row hrow =>
      hrows row ((Rows.lastOfEach_sublist _).subset hrow)
termination_by 3 * bs.length
decreasing_by all_goals simp only [List.length_append, List.length_cons]; omega

theorem Padded.wellFormed {depth : Nat} {bs : Bytes} {v : Value} (h : Padded depth bs v) :
    Utf8.WellFormed bs → v.EveryText fun t => Utf8.WellFormed t.bytes := by
  cases h with
  | mk hbefore hspells hafter =>
    intro hbs
    exact hspells.wellFormed (wellFormed_of_padded hbefore hafter hbs)
termination_by 3 * bs.length + 1
decreasing_by simp only [List.length_append]; omega

theorem Elements.wellFormed {depth : Nat} {bs : Bytes} {elements : List Value}
    (h : Elements depth bs elements) :
    Utf8.WellFormed bs → ∀ v ∈ elements, v.EveryText fun t => Utf8.WellFormed t.bytes := by
  cases h with
  | last hpadded => exact fun hbs => List.forall_mem_singleton.mpr (hpadded.wellFormed hbs)
  | more hpadded helements =>
    intro hbs
    obtain ⟨hfirst, hrest⟩ := (wellFormed_append_cons_iff (by decide)).mp hbs
    exact List.forall_mem_cons.mpr ⟨hpadded.wellFormed hfirst, helements.wellFormed hrest⟩
termination_by 3 * bs.length + 2
decreasing_by all_goals grind [List.length_append]

theorem Members.wellFormed {depth : Nat} {bs : Bytes} {rows : List (Text × Value)}
    (h : Members depth bs rows) :
    Utf8.WellFormed bs → ∀ row ∈ rows, Utf8.WellFormed row.1.bytes ∧
      row.2.EveryText fun t => Utf8.WellFormed t.bytes := by
  cases h with
  | last hkey hpadded =>
    intro hbs
    obtain ⟨hname, hbs⟩ := (wellFormed_append_cons_iff (by decide)).mp hbs
    exact List.forall_mem_singleton.mpr ⟨hkey.wellFormed hname, hpadded.wellFormed hbs⟩
  | more hkey hpadded hmembers =>
    intro hbs
    obtain ⟨hname, hbs⟩ := (wellFormed_append_cons_iff (by decide)).mp hbs
    obtain ⟨hfirst, hrest⟩ := (wellFormed_append_cons_iff (by decide)).mp hbs
    exact List.forall_mem_cons.mpr
      ⟨⟨hkey.wellFormed hname, hpadded.wellFormed hfirst⟩, hmembers.wellFormed hrest⟩
termination_by 3 * bs.length + 2
decreasing_by all_goals simp only [List.length_append, List.length_cons]; omega

end

end Grammar

/-! ## §4 Decoded trees -/

variable {form : Representation} {requested : Nat} {input : Bytes} {v : Value}

/-- All strings and all keys of a decoded tree are well formed if the input is, at any limit and in
either representation. -/
theorem decode_wellFormed (hinput : Utf8.WellFormed input)
    (h : decode form requested input = .ok v) : v.EveryText fun t => Utf8.WellFormed t.bytes := by
  -- Detaching keeps the bytes of every text.
  have hdetached := (decode_document h).wellFormed hinput
  rwa [Value.everyText_detached_iff] at hdetached

/-- An object with a key of two raw bytes, whose string has an escaped unit, an escaped pair and the
raw bytes again. -/
def escapedInput : Bytes :=
  [0x7B, 0x22, 0xC3, 0xA9, 0x22, 0x3A, 0x22] ++ Bytes.ofAscii "\\u00e9\\ud83d\\ude00" ++
    [0xC3, 0xA9, 0x22, 0x7D]

/-- The string is put together from the forms of two escapes and the raw bytes after them. -/
theorem decode_wellFormed_escaped :
    Utf8.WellFormed escapedInput ∧
      ∃ v, decode .borrowed 0 escapedInput = .ok v ∧
        (v.get? [0xC3, 0xA9]).bind Value.asText =
          some [0xC3, 0xA9, 0xF0, 0x9F, 0x98, 0x80, 0xC3, 0xA9] ∧
        v.EveryText fun t => Utf8.WellFormed t.bytes := by
  have hinput : Utf8.WellFormed escapedInput := by decide +kernel
  have htext : ((decode .borrowed 0 escapedInput).toOption.bind fun v =>
      (v.get? [0xC3, 0xA9]).bind Value.asText) =
        some [0xC3, 0xA9, 0xF0, 0x9F, 0x98, 0x80, 0xC3, 0xA9] := by decide +kernel
  cases hdecode : decode .borrowed 0 escapedInput with
  | error e =>
    rw [hdecode] at htext
    cases htext
  | ok v =>
    rw [hdecode] at htext
    exact ⟨hinput, v, rfl, htext, decode_wellFormed hinput hdecode⟩

end JsonTree
