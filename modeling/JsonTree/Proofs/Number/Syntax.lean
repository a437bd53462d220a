import JsonTree.Proofs.Grammar
import JsonTree.Token

/-!
# Reading number literals

The reader takes a literal apart by longest match. What it takes is a numeral of the grammar, and a
numeral is taken as a whole wherever a delimiter or the end follows, because no part of a literal
can go on there.

## Main statements

- `Literal.numeral_of_read`: what is read is a numeral.
- `Literal.read_append`: a numeral that cannot go on with what follows it is read.
- `Literal.read_numeral`: a numeral that is ended by a delimiter is read.
-/

namespace JsonTree

open Grammar

/-- The bytes are at an end, or a delimiter comes first. -/
def Delimited (rest : Bytes) : Prop := ∀ b, rest.head? = some b → Byte.isDelimiter b = true

namespace Literal

/-! ## §1 Runs of digits -/

/-- No digit comes first. -/
def NoDigit (rest : Bytes) : Prop := ∀ b, rest.head? = some b → Byte.isDigit b = false

theorem noDigit_cons {b : UInt8} (hb : Byte.isDigit b = false) (bs : Bytes) :
    NoDigit (b :: bs) := by
  rintro c ⟨⟩
  exact hb

theorem digits_of_digits? {bs ds rest : Bytes} (h : digits? bs = some (ds, rest)) :
    Digits ds ∧ bs = ds ++ rest := by
  have hsplit : bs = bs.takeWhile Byte.isDigit ++ bs.dropWhile Byte.isDigit :=
    List.takeWhile_append_dropWhile.symm
  have hdigit : ∀ d ∈ bs.takeWhile Byte.isDigit, Byte.isDigit d = true := fun d hd =>
    (List.all_eq_true.mp List.all_takeWhile) d hd
  unfold digits? at h
  split at h
  · cases h
  · rename_i hne
    cases h
    exact ⟨⟨hne, hdigit⟩, hsplit⟩

theorem digits?_append {ds rest : Bytes} (hds : Digits ds) (hrest : NoDigit rest) :
    digits? (ds ++ rest) = some (ds, rest) := by
  have htake : rest.takeWhile Byte.isDigit = [] ∧ rest.dropWhile Byte.isDigit = rest := by
    cases rest with
    | nil => exact ⟨rfl, rfl⟩
    | cons b rest =>
      have hb : Byte.isDigit b = false := hrest b rfl
      simp [hb]
  unfold digits?
  rw [List.takeWhile_append_of_pos hds.digit, List.dropWhile_append_of_pos hds.digit, htake.1,
    htake.2, List.append_nil]
  cases ds with
  | nil => exact absurd rfl hds.nonempty
  | cons d ds => rfl

/-! ## §2 The parts of a literal -/

theorem whole_of_whole? {bs ds rest : Bytes} (h : whole? bs = some (ds, rest)) :
    Whole ds ∧ bs = ds ++ rest := by
  cases bs with
  | nil => cases h
  | cons b bs =>
    rw [whole?] at h
    split at h
    · rename_i hzero
      obtain rfl := eq_of_beq hzero
      cases h
      exact ⟨.zero, rfl⟩
    · rename_i hzero
      obtain ⟨hds, hsplit⟩ := digits_of_digits? h
      refine ⟨.run hds ?_, hsplit⟩
      intro hhead
      cases ds with
      | nil => cases hhead
      | cons d ds =>
        cases hsplit
        cases hhead
        exact hzero rfl

theorem whole?_append {ds rest : Bytes} (hds : Whole ds) (hrest : ds ≠ [0x30] → NoDigit rest) :
    whole? (ds ++ rest) = some (ds, rest) := by
  cases hds with
  | zero => rfl
  | run hdigits hhead =>
    cases ds with
    | nil => exact absurd rfl hdigits.nonempty
    | cons d ds =>
      have hzero : (d == 0x30) = false := by
        rw [beq_eq_false_iff_ne]
        exact fun hd => hhead (congrArg some hd)
      have hrun : d :: ds ≠ [0x30] := fun hds => hhead (congrArg List.head? hds)
      rw [List.cons_append, whole?, hzero]
      exact digits?_append hdigits (hrest hrun)

theorem fraction_of_fraction? {bs rest : Bytes} {fraction : Option Bytes}
    (h : fraction? bs = some (fraction, rest)) :
    ∃ point, Fraction point fraction ∧ bs = point ++ rest := by
  cases bs with
  | nil =>
    cases h
    exact ⟨[], .absent, rfl⟩
  | cons b bs =>
    rw [fraction?] at h
    split at h
    · rename_i hpoint
      obtain rfl := eq_of_beq hpoint
      obtain ⟨⟨ds, rest'⟩, hdigits, heq⟩ := Option.map_eq_some_iff.mp h
      cases heq
      obtain ⟨hds, rfl⟩ := digits_of_digits? hdigits
      exact ⟨_, .present hds, rfl⟩
    · cases h
      exact ⟨[], .absent, rfl⟩

theorem fraction?_append {point rest : Bytes} {fraction : Option Bytes}
    (h : Fraction point fraction) (hrest : fraction ≠ none → NoDigit rest)
    (hpoint : fraction = none → rest.head? ≠ some 0x2E) :
    fraction? (point ++ rest) = some (fraction, rest) := by
  cases h with
  | absent =>
    cases rest with
    | nil => rfl
    | cons b rest =>
      have hb : (b == 0x2E) = false := by
        rw [beq_eq_false_iff_ne]
        exact fun hb => hpoint rfl (congrArg some hb)
      rw [List.nil_append, fraction?, hb]
      rfl
  | present hds =>
    rw [List.cons_append, fraction?, digits?_append hds (hrest (Option.some_ne_none _))]
    rfl

theorem exponentSign_eq {bs rest : Bytes} {minus : Bool} (h : exponentSign bs = (minus, rest)) :
    ∃ sign, ExponentSign sign minus ∧ bs = sign ++ rest := by
  cases bs with
  | nil =>
    cases h
    exact ⟨[], .absent, rfl⟩
  | cons b bs =>
    rw [exponentSign] at h
    split at h
    · rename_i hplus
      obtain rfl := eq_of_beq hplus
      cases h
      exact ⟨_, .plus, rfl⟩
    · split at h
      · rename_i hminus
        obtain rfl := eq_of_beq hminus
        cases h
        exact ⟨_, .minus, rfl⟩
      · cases h
        exact ⟨[], .absent, rfl⟩

theorem exponent_of_exponent? {bs rest : Bytes} {exponent : Option (Bool × Bytes)}
    (h : exponent? bs = some (exponent, rest)) :
    ∃ power, Exponent power exponent ∧ bs = power ++ rest := by
  cases bs with
  | nil =>
    cases h
    exact ⟨[], .absent, rfl⟩
  | cons b bs =>
    rw [exponent?] at h
    split at h
    · rename_i hletter
      have hb : b = 0x65 ∨ b = 0x45 := by simpa using hletter
      generalize hread : exponentSign bs = signed at h
      obtain ⟨minus, tail⟩ := signed
      obtain ⟨sign, hsign, rfl⟩ := exponentSign_eq hread
      obtain ⟨⟨ds, rest'⟩, hdigits, heq⟩ := Option.map_eq_some_iff.mp h
      cases heq
      obtain ⟨hds, rfl⟩ := digits_of_digits? hdigits
      refine ⟨_, .present hb hsign hds, ?_⟩
      rw [List.cons_append, List.cons_append, List.append_assoc]
    · cases h
      exact ⟨[], .absent, rfl⟩

theorem exponent?_append {power rest : Bytes} {exponent : Option (Bool × Bytes)}
    (h : Exponent power exponent) (hrest : exponent ≠ none → NoDigit rest)
    (hletter : exponent = none → rest.head? ≠ some 0x65 ∧ rest.head? ≠ some 0x45) :
    exponent? (power ++ rest) = some (exponent, rest) := by
  cases h with
  | absent =>
    obtain ⟨hlower, hupper⟩ := hletter rfl
    cases rest with
    | nil => rfl
    | cons b rest =>
      have hb : (b == 0x65 || b == 0x45) = false := by
        rw [Bool.or_eq_false_iff, beq_eq_false_iff_ne, beq_eq_false_iff_ne]
        exact ⟨fun hb => hlower (congrArg some hb), fun hb => hupper (congrArg some hb)⟩
      rw [List.nil_append, exponent?, hb]
      rfl
  | @present letter sign ds minus hb hsign hds =>
    have hletter : (letter == 0x65 || letter == 0x45) = true := by simpa using hb
    have hread : exponentSign (sign ++ (ds ++ rest)) = (minus, ds ++ rest) := by
      cases hsign with
      | plus => rfl
      | minus => rfl
      | absent =>
        -- A digit is neither of the two signs.
        cases ds with
        | nil => exact absurd rfl hds.nonempty
        | cons d ds =>
          have hd : Byte.isDigit d = true := hds.digit d List.mem_cons_self
          have hplus : d ≠ 0x2B := by
            rintro rfl
            cases hd
          have hminus : d ≠ 0x2D := by
            rintro rfl
            cases hd
          simp [exponentSign, hplus, hminus]
    rw [List.cons_append, List.cons_append, List.append_assoc, exponent?, hletter, hread]
    simp only [if_true]
    rw [digits?_append hds (hrest (Option.some_ne_none _))]
    rfl

/-! ## §3 Whole literals -/

/-- The caller has seen the minus; the reader only passes over it. -/
theorem drop_minusSign (negative : Bool) (bs : Bytes) :
    (if negative then (minusSign negative ++ bs).drop 1 else minusSign negative ++ bs) = bs := by
  cases negative <;> rfl

/-- A literal is read part by part. -/
theorem parts_of_read {negative : Bool} {bs rest : Bytes} {l : Literal}
    (h : read negative bs = some (l, rest)) :
    ∃ rest₁ rest₂, whole? (if negative then bs.drop 1 else bs) = some (l.whole, rest₁) ∧
      fraction? rest₁ = some (l.fraction, rest₂) ∧ exponent? rest₂ = some (l.exponent, rest) ∧
      l.negative = negative := by
  unfold read at h
  obtain ⟨⟨whole, rest₁⟩, hwhole, h⟩ := Option.bind_eq_some_iff.mp h
  obtain ⟨⟨fraction, rest₂⟩, hfraction, h⟩ := Option.bind_eq_some_iff.mp h
  obtain ⟨⟨exponent, rest₃⟩, hexponent, h⟩ := Option.bind_eq_some_iff.mp h
  cases h
  exact ⟨rest₁, rest₂, hwhole, hfraction, hexponent, rfl⟩

/-- What is read is a numeral with the given sign. -/
theorem numeral_of_read {negative : Bool} {bs rest : Bytes} {l : Literal}
    (hminus : negative = true → bs.head? = some Byte.minus)
    (h : read negative bs = some (l, rest)) :
    ∃ text, bs = text ++ rest ∧ Numeral text l ∧ l.negative = negative := by
  obtain ⟨rest₁, rest₂, hwhole, hfraction, hexponent, hnegative⟩ := parts_of_read h
  obtain ⟨hdigits, hbs⟩ := whole_of_whole? hwhole
  obtain ⟨point, hpoint, rfl⟩ := fraction_of_fraction? hfraction
  obtain ⟨power, hpower, rfl⟩ := exponent_of_exponent? hexponent
  refine ⟨_, ?_, .mk hdigits hpoint hpower, hnegative⟩
  rw [hnegative]
  have hsign : bs = minusSign negative ++ (if negative then bs.drop 1 else bs) := by
    cases negative with
    | false => rfl
    | true =>
      cases bs with
      | nil => cases hminus rfl
      | cons b bs =>
        cases hminus rfl
        rfl
  rw [hsign, hbs]
  simp only [List.append_assoc]

/-! ## §4 Where a literal ends -/

/-- The bytes that are delimiters. -/
def delimiters : Bytes :=
  [0x20, 0x09, 0x0A, 0x0D, 0x7B, 0x7D, 0x5B, 0x5D, 0x3A, 0x2C, 0x22]

theorem mem_delimiters {b : UInt8} (hb : Byte.isDelimiter b = true) : b ∈ delimiters := by
  simpa [Byte.isDelimiter, Byte.isWhitespace, Byte.isStructural, delimiters, or_assoc] using hb

/-- The bytes besides digits that literals consist of. -/
def marks : Bytes := [0x2E, 0x65, 0x45, 0x2B, 0x2D]

theorem not_delimiter_of_mark {b : UInt8} (hb : b ∈ marks) : Byte.isDelimiter b = false := by
  have hall : ∀ b ∈ marks, Byte.isDelimiter b = false := List.all_iff_forall_prop.mp (by decide)
  exact hall b hb

theorem not_delimiter_of_digit {b : UInt8} (hb : Byte.isDigit b = true) :
    Byte.isDelimiter b = false := by
  have hall : ∀ b ∈ delimiters, Byte.isDigit b = false := List.all_iff_forall_prop.mp (by decide)
  by_contra h
  have hdelimiter := mem_delimiters (Bool.eq_true_of_not_eq_false h)
  rw [hall b hdelimiter] at hb
  cases hb

/-- The bytes of a literal are no delimiters. -/
theorem not_delimiter_of_numeral {text : Bytes} {l : Literal} (h : Numeral text l) :
    ∀ b ∈ text, Byte.isDelimiter b = false := by
  have hdigits : ∀ {ds : Bytes}, Digits ds → ∀ b ∈ ds, Byte.isDelimiter b = false :=
    fun hds b hb => not_delimiter_of_digit (hds.digit b hb)
  obtain ⟨hwhole, hpoint, hpower⟩ := h
  simp only [List.forall_mem_append]
  refine ⟨?_, ?_, ?_, ?_⟩
  · rename_i negative _ _ _ _ _
    cases negative <;> exact List.all_iff_forall_prop.mp (by decide)
  · cases hwhole with
    | zero => exact List.all_iff_forall_prop.mp (by decide)
    | run hds => exact hdigits hds
  · cases hpoint with
    | absent => exact List.all_iff_forall_prop.mp (by decide)
    | present hds => exact List.forall_mem_cons.mpr ⟨by decide, hdigits hds⟩
  · cases hpower with
    | absent => exact List.all_iff_forall_prop.mp (by decide)
    | present hletter hsign hds =>
      simp only [List.forall_mem_append, List.forall_mem_cons]
      refine ⟨⟨?_, ?_⟩, hdigits hds⟩
      · rcases hletter with rfl | rfl <;> decide
      · cases hsign <;> exact List.all_iff_forall_prop.mp (by decide)

/-- A numeral begins with its minus, or with a digit. -/
theorem numeral_head {text : Bytes} {l : Literal} (h : Numeral text l) :
    ∃ b bs, text = b :: bs ∧ ((l.negative = true ∧ b = Byte.minus) ∨
      (l.negative = false ∧ Byte.isDigit b = true)) := by
  obtain ⟨hwhole, -, -⟩ := h
  rename_i negative whole point power fraction exponent
  cases negative with
  | true => exact ⟨Byte.minus, _, rfl, .inl ⟨rfl, rfl⟩⟩
  | false =>
    cases hwhole with
    | zero => exact ⟨0x30, _, rfl, .inr ⟨rfl, rfl⟩⟩
    | run hds =>
      cases whole with
      | nil => exact absurd rfl hds.nonempty
      | cons d ds => exact ⟨d, _, rfl, .inr ⟨rfl, hds.digit d List.mem_cons_self⟩⟩

/-- Nothing of what follows a literal could go on with it. A lone zero takes no more digits. -/
structure Ends (l : Literal) (rest : Bytes) : Prop where
  digit : l.whole ≠ [0x30] ∨ l.fraction ≠ none ∨ l.exponent ≠ none → NoDigit rest
  point : l.fraction = none → l.exponent = none → rest.head? ≠ some 0x2E
  letter : l.exponent = none → rest.head? ≠ some 0x65 ∧ rest.head? ≠ some 0x45

/-- A numeral that cannot go on is read as a whole. -/
theorem read_append {text rest : Bytes} {l : Literal} (h : Numeral text l) (hrest : l.Ends rest) :
    read l.negative (text ++ rest) = some (l, rest) := by
  obtain ⟨hdigitEnd, hpointEnd, hletterEnd⟩ := hrest
  obtain ⟨hwhole, hpoint, hpower⟩ := h
  rename_i negative whole point power fraction exponent
  -- Each part begins with a mark of its own, or is absent.
  have hpowerDigit : whole ≠ [0x30] ∨ fraction ≠ none → NoDigit (power ++ rest) := by
    intro hpart
    cases hpower with
    | absent => exact hdigitEnd (hpart.imp_right .inl)
    | present hletter hsign hds =>
      rcases hletter with rfl | rfl <;> exact noDigit_cons rfl _
  have hpowerPoint : fraction = none → (power ++ rest).head? ≠ some 0x2E := by
    intro hnone
    cases hpower with
    | absent => exact hpointEnd hnone rfl
    | present hletter hsign hds => rcases hletter with rfl | rfl <;> simp
  have hpointDigit : whole ≠ [0x30] → NoDigit (point ++ (power ++ rest)) := by
    intro hrun
    cases hpoint with
    | absent => exact hpowerDigit (.inl hrun)
    | present hds => exact noDigit_cons rfl _
  unfold read
  simp only [List.append_assoc]
  rw [drop_minusSign, whole?_append hwhole hpointDigit, Option.bind_eq_bind, Option.bind_some]
  simp only []
  rw [fraction?_append hpoint (fun hsome => hpowerDigit (.inr hsome)) hpowerPoint,
    Option.bind_eq_bind, Option.bind_some]
  simp only []
  rw [exponent?_append hpower (fun hsome => hdigitEnd (.inr (.inr hsome))) hletterEnd]
  rfl

/-- No part of a literal can go on at a delimiter. -/
theorem ends_of_delimited {rest : Bytes} (hrest : Delimited rest) (l : Literal) :
    l.Ends rest := by
  have hmark : ∀ b ∈ marks, rest.head? ≠ some b := by
    intro b hb hhead
    cases (hrest b hhead).symm.trans (not_delimiter_of_mark hb)
  constructor
  · intro _ b hhead
    by_contra h
    have hdelimiter := not_delimiter_of_digit (Bool.eq_true_of_not_eq_false h)
    cases (hrest b hhead).symm.trans hdelimiter
  · exact fun _ _ => hmark _ (by decide)
  · exact fun _ => ⟨hmark _ (by decide), hmark _ (by decide)⟩

/-- A numeral that a delimiter or the end follows is read as a whole. -/
theorem read_numeral {text rest : Bytes} {l : Literal} (h : Numeral text l)
    (hrest : Delimited rest) : read l.negative (text ++ rest) = some (l, rest) :=
  read_append h (ends_of_delimited hrest l)

end Literal

end JsonTree
