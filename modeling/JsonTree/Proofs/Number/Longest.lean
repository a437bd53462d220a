import JsonTree.Proofs.Number.Read

/-!
# The longest numeral at the front of a text

Reading commits itself to each part of a literal as soon as that part begins: behind a minus, a
point, or the letter of an exponent a digit is required, and a text that breaks off there is refused
even where a shorter numeral stands in front. Every other text is read up to the end of the longest
numeral at its front, and what that numeral denotes is its number.

## Main definitions

- `Literal.Unfinished`: a text that breaks off where a numeral requires a digit.
- `Literal.Longest`: the longest numeral at the front of a text.
- `Literal.WordsHold`: what the machine words hold while the digits of a literal are read.

## Main statements

- `Literal.read_eq_none_iff`: the texts that are refused are those that break off.
- `Literal.read_eq_some_iff`: all others are read up to the end of the longest numeral.
- `Number.read_longest`: the number of a text, and when there is none.
-/

namespace JsonTree

open Grammar

namespace Literal

/-! ## §1 Texts that break off -/

/-- Whether a text begins with a minus. -/
def beginsMinus (bs : Bytes) : Bool := bs.head? == some Byte.minus

/-- A text that breaks off where a numeral requires a digit. -/
inductive Unfinished : Bytes → Prop where
  /-- Neither at the front nor behind a minus there is a digit. -/
  | whole {bs : Bytes} :
      (∀ negative tail, bs = minusSign negative ++ tail → NoDigit tail) → Unfinished bs
  /-- Behind the point there is none. -/
  | fraction {negative : Bool} {whole tail : Bytes} :
      Whole whole → NoDigit tail → Unfinished (minusSign negative ++ (whole ++ 0x2E :: tail))
  /-- Behind the letter of an exponent there is none, with or without a sign. -/
  | exponent {negative : Bool} {whole point power : Bytes} {fraction : Option Bytes}
      {letter : UInt8} :
      Whole whole → Fraction point fraction → letter = 0x65 ∨ letter = 0x45 →
      (∀ sign minus tail, ExponentSign sign minus → power = sign ++ tail → NoDigit tail) →
      Unfinished (minusSign negative ++ (whole ++ (point ++ letter :: power)))

theorem digits?_eq_none_iff (bs : Bytes) : digits? bs = none ↔ NoDigit bs := by
  cases bs with
  | nil => simp [digits?, NoDigit]
  | cons b bs =>
    cases hb : Byte.isDigit b <;> simp [digits?, NoDigit, hb]

theorem whole?_eq_none_iff (bs : Bytes) : whole? bs = none ↔ NoDigit bs := by
  cases bs with
  | nil => simp [whole?, NoDigit]
  | cons b bs =>
    rw [whole?]
    split
    · rename_i hzero
      obtain rfl := eq_of_beq hzero
      simp [NoDigit, Byte.isDigit]
    · exact digits?_eq_none_iff (b :: bs)

theorem fraction?_eq_none_iff (bs : Bytes) :
    fraction? bs = none ↔ ∃ tail, bs = 0x2E :: tail ∧ NoDigit tail := by
  cases bs with
  | nil => simp [fraction?]
  | cons b bs =>
    rw [fraction?]
    by_cases hpoint : b = 0x2E
    · simp [hpoint, digits?_eq_none_iff]
    · simp [hpoint]

/-- Whatever is taken as the sign of an exponent, no digit comes behind it. -/
theorem noDigit_exponentSign_iff (bs : Bytes) :
    NoDigit (exponentSign bs).2 ↔
      ∀ sign minus tail, ExponentSign sign minus → bs = sign ++ tail → NoDigit tail := by
  constructor
  · rintro hnone sign minus tail hsign rfl
    cases hsign with
    | plus => exact hnone
    | minus => exact hnone
    | absent =>
      -- Where there is a sign, no digit stands in its place either.
      rintro b hb
      cases tail with
      | nil => cases hb
      | cons c tail =>
        obtain rfl : c = b := Option.some.inj hb
        by_cases hplus : c = 0x2B
        · rw [hplus]
          rfl
        · by_cases hminus : c = 0x2D
          · rw [hminus]
            rfl
          · exact hnone c (by simp [exponentSign, hplus, hminus])
  · intro h
    have hread : exponentSign bs = ((exponentSign bs).1, (exponentSign bs).2) := rfl
    obtain ⟨sign, hsign, hbs⟩ := exponentSign_eq hread
    exact h sign _ _ hsign hbs

theorem exponent?_eq_none_iff (bs : Bytes) :
    exponent? bs = none ↔
      ∃ letter tail, bs = letter :: tail ∧ (letter = 0x65 ∨ letter = 0x45) ∧
        NoDigit (exponentSign tail).2 := by
  cases bs with
  | nil => simp [exponent?]
  | cons b bs =>
    rw [exponent?]
    by_cases hletter : b = 0x65 ∨ b = 0x45
    · simp [hletter, digits?_eq_none_iff]
    · simp [hletter]

/-- Apart from its minus, a text is what comes behind it. -/
theorem minusSign_append (bs : Bytes) :
    minusSign (beginsMinus bs) ++ (if beginsMinus bs then bs.drop 1 else bs) = bs := by
  cases bs with
  | nil => rfl
  | cons b bs =>
    by_cases hminus : b = Byte.minus
    · rw [hminus]
      rfl
    · have hfalse : beginsMinus (b :: bs) = false := by simp [beginsMinus, hminus]
      rw [hfalse]
      rfl

/-- An integer part does not begin with a minus. -/
theorem beginsMinus_append {whole : Bytes} (h : Whole whole) (negative : Bool) (rest : Bytes) :
    beginsMinus (minusSign negative ++ (whole ++ rest)) = negative := by
  cases negative with
  | true => rfl
  | false =>
    cases h with
    | zero => rfl
    | run hds _ =>
      cases whole with
      | nil => exact absurd rfl hds.nonempty
      | cons d ds =>
        have hd : Byte.isDigit d = true := hds.digit d List.mem_cons_self
        have hminus : d ≠ Byte.minus := by
          rintro rfl
          cases hd
        simp [beginsMinus, minusSign, hminus]

/-- Whether or not a minus is passed over, no digit comes behind it. -/
theorem noDigit_behind_iff (bs : Bytes) :
    NoDigit (if beginsMinus bs then bs.drop 1 else bs) ↔
      ∀ negative tail, bs = minusSign negative ++ tail → NoDigit tail := by
  constructor
  · rintro hnone negative tail rfl
    cases negative with
    | true => exact hnone
    | false =>
      intro b hb
      by_cases hminus : b = Byte.minus
      · rw [hminus]
        rfl
      · have hfalse : beginsMinus (minusSign false ++ tail) = false := by
          rw [beginsMinus, minusSign, if_neg Bool.false_ne_true, List.nil_append, hb]
          simpa using hminus
        rw [hfalse] at hnone
        exact hnone b hb
  · exact fun h => h _ _ (minusSign_append bs).symm

/-- Exactly the texts that break off are refused. -/
theorem read_eq_none_iff (bs : Bytes) : read (beginsMinus bs) bs = none ↔ Unfinished bs := by
  constructor
  · intro h
    have hsplit := minusSign_append bs
    unfold read at h
    -- The first part that fails is the one that breaks off.
    cases hwhole : whole? (if beginsMinus bs then bs.drop 1 else bs) with
    | none => exact .whole ((noDigit_behind_iff bs).mp ((whole?_eq_none_iff _).mp hwhole))
    | some p =>
      obtain ⟨whole, rest⟩ := p
      obtain ⟨hdigits, hbehind⟩ := whole_of_whole? hwhole
      rw [hbehind] at hsplit
      cases hfraction : fraction? rest with
      | none =>
        obtain ⟨tail, rfl, htail⟩ := (fraction?_eq_none_iff rest).mp hfraction
        exact hsplit ▸ .fraction hdigits htail
      | some p =>
        obtain ⟨fraction, power⟩ := p
        obtain ⟨point, hpoint, rfl⟩ := fraction_of_fraction? hfraction
        cases hexponent : exponent? power with
        | none =>
          obtain ⟨letter, tail, rfl, hletter, htail⟩ := (exponent?_eq_none_iff power).mp hexponent
          rw [noDigit_exponentSign_iff] at htail
          exact hsplit ▸ .exponent hdigits hpoint hletter htail
        | some p =>
          simp only [hwhole, hfraction, hexponent, Option.bind_eq_bind, Option.bind_some] at h
          cases h
  · intro h
    cases h with
    | whole htail =>
      have hwhole := (whole?_eq_none_iff _).mpr ((noDigit_behind_iff bs).mpr htail)
      rw [read, hwhole]
      rfl
    | @fraction negative whole tail hwhole htail =>
      have hfraction : fraction? (0x2E :: tail) = none :=
        (fraction?_eq_none_iff _).mpr ⟨tail, rfl, htail⟩
      rw [beginsMinus_append hwhole, read, drop_minusSign,
        whole?_append hwhole fun _ => noDigit_cons rfl tail]
      simp [hfraction]
    | @exponent negative whole point power fraction letter hwhole hpoint hletter htail =>
      have hexponent : exponent? (letter :: power) = none :=
        (exponent?_eq_none_iff _).mpr
          ⟨letter, power, rfl, hletter, (noDigit_exponentSign_iff power).mpr htail⟩
      obtain ⟨hdigit, hpointEnd⟩ :
          NoDigit (letter :: power) ∧ (letter :: power).head? ≠ some 0x2E := by
        rcases hletter with rfl | rfl <;> exact ⟨noDigit_cons rfl power, by simp⟩
      have hpointDigit : NoDigit (point ++ letter :: power) := by
        cases hpoint with
        | absent => exact hdigit
        | present hds => exact noDigit_cons rfl _
      rw [beginsMinus_append hwhole, read, drop_minusSign,
        whole?_append hwhole fun _ => hpointDigit, Option.bind_eq_bind, Option.bind_some]
      simp only []
      rw [fraction?_append hpoint (fun _ => hdigit) fun _ => hpointEnd]
      simp [hexponent]

/-! ## §2 Where reading stops -/

theorem noDigit_of_digits? {bs ds rest : Bytes} (h : digits? bs = some (ds, rest)) :
    NoDigit rest := by
  have hstop := List.head?_dropWhile_not Byte.isDigit bs
  unfold digits? at h
  split at h
  · cases h
  · cases h
    intro b hb
    rw [hb] at hstop
    simpa using hstop

theorem noDigit_of_whole? {bs ds rest : Bytes} (h : whole? bs = some (ds, rest))
    (hds : ds ≠ [0x30]) : NoDigit rest := by
  cases bs with
  | nil => cases h
  | cons b bs =>
    rw [whole?] at h
    split at h
    · rename_i hzero
      cases h
      exact absurd (congrArg ([·]) (eq_of_beq hzero)) hds
    · exact noDigit_of_digits? h

/-- A fraction takes all digits behind its point, and is absent only where there is no point. -/
theorem fraction?_stops {bs rest : Bytes} {fraction : Option Bytes}
    (h : fraction? bs = some (fraction, rest)) :
    (fraction ≠ none ∧ NoDigit rest) ∨
      (fraction = none ∧ rest = bs ∧ rest.head? ≠ some 0x2E) := by
  cases bs with
  | nil =>
    cases h
    exact .inr ⟨rfl, rfl, nofun⟩
  | cons b bs =>
    rw [fraction?] at h
    split at h
    · obtain ⟨⟨ds, rest'⟩, hdigits, heq⟩ := Option.map_eq_some_iff.mp h
      cases heq
      exact .inl ⟨Option.some_ne_none _, noDigit_of_digits? hdigits⟩
    · rename_i hpoint
      cases h
      exact .inr ⟨rfl, rfl, by simpa using hpoint⟩

/-- An exponent takes all digits behind it, and is absent only where there is no letter. -/
theorem exponent?_stops {bs rest : Bytes} {exponent : Option (Bool × Bytes)}
    (h : exponent? bs = some (exponent, rest)) :
    (exponent ≠ none ∧ NoDigit rest) ∨
      (exponent = none ∧ rest = bs ∧ rest.head? ≠ some 0x65 ∧ rest.head? ≠ some 0x45) := by
  cases bs with
  | nil =>
    cases h
    exact .inr ⟨rfl, rfl, nofun, nofun⟩
  | cons b bs =>
    rw [exponent?] at h
    split at h
    · obtain ⟨⟨ds, rest'⟩, hdigits, heq⟩ := Option.map_eq_some_iff.mp h
      cases heq
      exact .inl ⟨Option.some_ne_none _, noDigit_of_digits? hdigits⟩
    · rename_i hletter
      cases h
      exact .inr ⟨rfl, rfl, by simpa using hletter⟩

/-- Reading stops where the literal cannot go on. -/
theorem ends_of_read {negative : Bool} {bs rest : Bytes} {l : Literal}
    (h : read negative bs = some (l, rest)) : l.Ends rest := by
  obtain ⟨rest₁, rest₂, hwhole, hfraction, hexponent, -⟩ := parts_of_read h
  obtain ⟨negative, whole, fraction, exponent⟩ := l
  have hdigit := noDigit_of_whole? hwhole
  -- The last part that is present decides how the literal could go on.
  rcases exponent?_stops hexponent with ⟨hsome, hstop⟩ | ⟨rfl, rfl, hletter⟩
  · exact ⟨fun _ => hstop, fun _ hnone => absurd hnone hsome, fun hnone => absurd hnone hsome⟩
  · rcases fraction?_stops hfraction with ⟨hsome, hstop⟩ | ⟨rfl, rfl, hpoint⟩
    · exact ⟨fun _ => hstop, fun hnone => absurd hnone hsome, fun _ => hletter⟩
    · exact ⟨fun hpart => hdigit (by simpa using hpart), fun _ _ => hpoint, fun _ => hletter⟩

/-! ## §3 The longest numeral -/

/-- The longest numeral at the front of a text, its parts, and what follows it. -/
structure Longest (bs text : Bytes) (l : Literal) (rest : Bytes) : Prop where
  split : bs = text ++ rest
  numeral : Numeral text l
  longest : ∀ text' l' rest', bs = text' ++ rest' → Numeral text' l' → text'.length ≤ text.length

theorem beginsMinus_numeral {text : Bytes} {l : Literal} (h : Numeral text l) (rest : Bytes) :
    beginsMinus (text ++ rest) = l.negative := by
  obtain ⟨hwhole, -, -⟩ := h
  rw [List.append_assoc, List.append_assoc]
  exact beginsMinus_append hwhole _ _

/-- What follows a literal keeps it from going on by its first byte alone. -/
theorem Ends.of_append {l : Literal} {more rest : Bytes} (h : l.Ends (more ++ rest))
    (hmore : more ≠ []) : l.Ends more := by
  have hhead : (more ++ rest).head? = more.head? := List.head?_append_of_ne_nil more hmore
  obtain ⟨hdigit, hpoint, hletter⟩ := h
  unfold NoDigit at hdigit
  rw [hhead] at hdigit hpoint hletter
  exact ⟨hdigit, hpoint, hletter⟩

theorem read_whole {text : Bytes} {l : Literal} (h : Numeral text l) :
    read l.negative text = some (l, []) := by
  have hread : read l.negative (text ++ []) = some (l, []) := read_numeral h nofun
  rwa [List.append_nil] at hread

/-- A text is a numeral in one way only. -/
theorem numeral_unique {text : Bytes} {l l' : Literal} (h : Numeral text l)
    (h' : Numeral text l') : l = l' := by
  have hread := read_whole h
  rw [← beginsMinus_numeral h [], beginsMinus_numeral h' [], read_whole h'] at hread
  cases hread
  rfl

/-- A numeral that cannot go on is the longest one. -/
theorem longest_of_ends {text rest : Bytes} {l : Literal} (h : Numeral text l)
    (hrest : l.Ends rest) : Longest (text ++ rest) text l rest := by
  refine ⟨rfl, h, fun text' l' rest' hsplit h' => ?_⟩
  by_contra hlonger
  -- A longer numeral would be read in two ways: as a whole, and up to the end of the shorter one.
  obtain ⟨more, rfl, rfl⟩ | ⟨more, rfl, -⟩ := List.append_eq_append_iff.mp hsplit
  case inr => simp at hlonger
  have hmore : more ≠ [] := by
    rintro rfl
    simp at hlonger
  have hshort := read_append h (hrest.of_append hmore)
  have hlong := read_whole h'
  rw [← beginsMinus_numeral h more] at hshort
  rw [← beginsMinus_numeral h' [], List.append_nil, hshort] at hlong
  cases hlong
  exact hmore rfl

/-- What does not break off is read up to the end of the longest numeral. -/
theorem read_eq_some_iff (bs : Bytes) (l : Literal) (rest : Bytes) :
    read (beginsMinus bs) bs = some (l, rest) ↔
      ¬ Unfinished bs ∧ ∃ text, Longest bs text l rest := by
  have hlongest : ∀ l rest, read (beginsMinus bs) bs = some (l, rest) →
      ∃ text, Longest bs text l rest := by
    intro l rest h
    have hminus : beginsMinus bs = true → bs.head? = some Byte.minus := eq_of_beq
    obtain ⟨text, rfl, hnumeral, -⟩ := numeral_of_read hminus h
    exact ⟨text, longest_of_ends hnumeral (ends_of_read h)⟩
  constructor
  · intro h
    refine ⟨fun hunfinished => ?_, hlongest l rest h⟩
    rw [(read_eq_none_iff bs).mpr hunfinished] at h
    cases h
  · rintro ⟨hfinished, text, hsplit, hnumeral, hmax⟩
    obtain ⟨⟨l', rest'⟩, hread⟩ : ∃ p, read (beginsMinus bs) bs = some p := by
      rw [← Option.ne_none_iff_exists']
      exact fun hnone => hfinished ((read_eq_none_iff bs).mp hnone)
    obtain ⟨text', hsplit', hnumeral', hmax'⟩ := hlongest l' rest' hread
    -- Two numerals that are both longest are the same.
    have hlength : text.length = text'.length :=
      Nat.le_antisymm (hmax' _ _ _ hsplit hnumeral) (hmax _ _ _ hsplit' hnumeral')
    obtain ⟨rfl, rfl⟩ := List.append_inj (hsplit.symm.trans hsplit') hlength
    rw [hread, numeral_unique hnumeral hnumeral']

/-! ## §4 The words on the way -/

/-- What the words hold after each digit of a literal. A word that is marked is not looked at any
more, and all others are exact. -/
structure WordsHold (l : Literal) : Prop where
  /-- The integer part so far, unless it needs more than 64 bits. -/
  whole : ∀ ds, ds <+: l.whole →
    ((wholeWord ds).overflow = false ∧ (wholeWord ds).value.toNat = natOfDigits ds) ∨
      ((wholeWord ds).overflow = true ∧ 2 ^ 64 ≤ natOfDigits ds)
  /-- The integer part with the fraction so far, and how many digits the latter has. -/
  decimal : ∀ ds, ds <+: l.fraction.getD [] →
    let word := { l with fraction := some ds }.collected.decimal
    word.places ≤ digitLimit ∧
      (word.truncated = false →
        word.value.toNat = natOfDigits (l.whole ++ ds) ∧ word.places = ds.length)
  /-- The exponent so far, up to its limit, and the next one before it is cut off there. -/
  exponent : ∀ ds d, ds ++ [d] <+: (l.exponent.getD (false, [])).2 →
    exponentSize ds = min exponentLimit (natOfDigits ds) ∧
      10 * exponentSize ds + digitValue d < 2 ^ 31

theorem wordsHold {l : Literal} (hl : l.Digital) : l.WordsHold := by
  constructor
  · intro ds hds
    have hword := holds_wholeWord fun d hd => hl.whole d (hds.subset hd)
    cases hover : (wholeWord ds).overflow with
    | false => exact .inl ⟨rfl, (hword.exact hover).1⟩
    | true => exact .inr ⟨rfl, hword.large hover⟩
  · intro ds hds
    have hpart : Digital { l with fraction := some ds } :=
      ⟨hl.whole, fun d hd => hl.fraction d (hds.subset hd)⟩
    obtain ⟨hexact, hfew⟩ := holds_decimal hpart
    exact ⟨hfew, fun h => ⟨(hexact h).1, (hexact h).2.2⟩⟩
  · intro ds d _
    have hbyte := d.toNat_lt
    have hsize := exponentSize_eq ds
    have hlimit : exponentLimit = 400 := rfl
    exact ⟨hsize, by unfold digitValue; omega⟩

end Literal

/-! ## §5 The number -/

open Literal

variable {bs text rest : Bytes} {l : Literal}

theorem Number.read_of_literal {negative : Bool} (h : Literal.read negative bs = some (l, rest)) :
    Number.read negative bs = l.number?.map fun n => (n, rest) := by
  rw [Number.read, h]
  cases hnumber : l.number? <;> simp [hnumber]

/-- The number of a text that does not break off is what its longest numeral denotes. -/
theorem Number.read_eq_some_iff_denotes (hfinished : ¬ Unfinished bs)
    (h : Longest bs text l rest) (n : Number) :
    Number.read (beginsMinus bs) bs = some (n, rest) ↔ Denotes l n := by
  have hread := (Literal.read_eq_some_iff bs l rest).mpr ⟨hfinished, text, h⟩
  rw [Number.read_of_literal hread, ← number?_eq_some_iff (digital_of_numeral h.numeral)]
  simp

theorem Number.read_eq_some_iff (bs : Bytes) (n : Number) (rest : Bytes) :
    Number.read (beginsMinus bs) bs = some (n, rest) ↔
      ¬ Unfinished bs ∧ ∃ text l, Longest bs text l rest ∧ Denotes l n := by
  constructor
  · intro h
    obtain ⟨⟨l, rest'⟩, hread, -⟩ := Option.bind_eq_some_iff.mp h
    obtain ⟨hfinished, text, hlongest⟩ := (Literal.read_eq_some_iff bs l rest').mp hread
    obtain rfl : rest' = rest := by
      rw [Number.read_of_literal hread, Option.map_eq_some_iff] at h
      obtain ⟨n', -, heq⟩ := h
      exact congrArg Prod.snd heq
    exact ⟨hfinished, text, l, hlongest,
      (Number.read_eq_some_iff_denotes hfinished hlongest n).mp h⟩
  · rintro ⟨hfinished, text, l, hlongest, hdenotes⟩
    exact (Number.read_eq_some_iff_denotes hfinished hlongest n).mpr hdenotes

/-- A literal has no number exactly if it denotes none. -/
theorem Literal.number?_eq_none_iff (hl : l.Digital) :
    l.number? = none ↔ ¬ IsInteger l ∧ 2 ^ 1024 - 2 ^ 970 ≤ l.size := by
  rw [← not_lt, ← not_or, ← exists_denotes_iff, Option.eq_none_iff_forall_ne_some, not_exists]
  exact forall_congr' fun n => not_congr (number?_eq_some_iff hl n)

/-- There is no number where the text breaks off, and where its longest numeral denotes none. -/
theorem Number.read_eq_none_iff (bs : Bytes) :
    Number.read (beginsMinus bs) bs = none ↔
      Unfinished bs ∨ ∃ text l rest, Longest bs text l rest ∧ ¬ IsInteger l ∧
        2 ^ 1024 - 2 ^ 970 ≤ l.size := by
  by_cases hunfinished : Unfinished bs
  · rw [Number.read, (Literal.read_eq_none_iff bs).mpr hunfinished]
    exact iff_of_true rfl (.inl hunfinished)
  · have hnumber : ∀ {text l rest}, Longest bs text l rest →
        (Number.read (beginsMinus bs) bs = none ↔
          ¬ IsInteger l ∧ 2 ^ 1024 - 2 ^ 970 ≤ l.size) := by
      intro text l rest h
      have hread := (Literal.read_eq_some_iff bs l rest).mpr ⟨hunfinished, text, h⟩
      rw [Number.read_of_literal hread, Option.map_eq_none_iff,
        Literal.number?_eq_none_iff (digital_of_numeral h.numeral)]
    constructor
    · intro h
      obtain ⟨⟨l, rest⟩, hread⟩ : ∃ p, Literal.read (beginsMinus bs) bs = some p := by
        rw [← Option.ne_none_iff_exists']
        exact mt (Literal.read_eq_none_iff bs).mp hunfinished
      obtain ⟨-, text, hlongest⟩ := (Literal.read_eq_some_iff bs l rest).mp hread
      exact .inr ⟨text, l, rest, hlongest, (hnumber hlongest).mp h⟩
    · rintro (h | ⟨text, l, rest, hlongest, h⟩)
      · exact absurd h hunfinished
      · exact (hnumber hlongest).mpr h

/-- A text is read up to the end of the longest numeral at its front, unless it breaks off, and the
number is what that numeral denotes; none where it is no integer of 64 bits and lies beyond the
finite doubles. The words on the way are exact as far as they count. -/
theorem Number.read_longest (bs : Bytes) :
    (∀ n rest, Number.read (beginsMinus bs) bs = some (n, rest) ↔
      ¬ Unfinished bs ∧ ∃ text l, Longest bs text l rest ∧ Denotes l n) ∧
    (Number.read (beginsMinus bs) bs = none ↔
      Unfinished bs ∨ ∃ text l rest, Longest bs text l rest ∧ ¬ IsInteger l ∧
        2 ^ 1024 - 2 ^ 970 ≤ l.size) ∧
    ∀ text l rest, ¬ Unfinished bs → Longest bs text l rest →
      (IsInteger l ↔
        ∃ i, Number.read (beginsMinus bs) bs = some (.i64 i, rest) ∧ i.toInt = l.integer) ∧
      (¬ IsInteger l ∧ l.size < 2 ^ 1024 - 2 ^ 970 ↔
        ∃ x, Number.read (beginsMinus bs) bs = some (.f64 x, rest) ∧
          x.IsNearest l.negative l.size) ∧
      l.WordsHold := by
  refine ⟨fun n rest => read_eq_some_iff bs n rest, read_eq_none_iff bs, ?_⟩
  intro text l rest hfinished hlongest
  have hread := read_eq_some_iff_denotes hfinished hlongest
  refine ⟨?_, ?_, wordsHold (digital_of_numeral hlongest.numeral)⟩
  · constructor
    · intro hinteger
      obtain ⟨i, hi⟩ := exists_toInt_eq hinteger
      exact ⟨i, (hread _).mpr (.integer hinteger hi), hi⟩
    · rintro ⟨i, hi, -⟩
      cases (hread _).mp hi with
      | integer hinteger _ => exact hinteger
  · constructor
    · rintro ⟨hinteger, hsize⟩
      obtain ⟨x, hx⟩ := Binary64.exists_isNearest l.negative hsize
      exact ⟨x, (hread _).mpr (.double hinteger hsize hx), hx⟩
    · rintro ⟨x, hx, -⟩
      cases (hread _).mp hx with
      | double hinteger hsize _ => exact ⟨hinteger, hsize⟩

/-- The least integer of 64 bits, before a comma: the integer part of the longest numeral is one
more than the greatest one. -/
theorem Number.read_longest_least :
    let bs := Bytes.ofAscii "-9223372036854775808,"
    Number.read (beginsMinus bs) bs = some (.i64 Int64.minValue, [Byte.comma]) ∧
      ¬ Unfinished bs ∧
      ∃ text l, Longest bs text l [Byte.comma] ∧ Denotes l (.i64 Int64.minValue) ∧
        IsInteger l ∧ l.WordsHold := by
  intro bs
  have hread : Number.read (beginsMinus bs) bs = some (.i64 Int64.minValue, [Byte.comma]) := by
    decide +kernel
  obtain ⟨hsome, -, hkinds⟩ := Number.read_longest bs
  obtain ⟨hfinished, text, l, hlongest, hdenotes⟩ := (hsome _ _).mp hread
  obtain ⟨hinteger, -, hwords⟩ := hkinds text l _ hfinished hlongest
  cases hdenotes with
  | integer hin hvalue =>
    exact ⟨hread, hfinished, text, l, hlongest, .integer hin hvalue, hin, hwords⟩

end JsonTree
