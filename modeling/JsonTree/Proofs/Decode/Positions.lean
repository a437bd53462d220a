import JsonTree.Proofs.Decode.Respaced
import JsonTree.Proofs.Token.Extents

/-!
# Where errors lie

A text is refused by the pass that splits it, by the outline of its tokens, or by the walk over
them. Each of the three knows of few places to be at fault: the end of the input, the first byte of
a token, and a byte of a string behind its opening quote. Which of these it is can be told from the
cause alone.

## Main definitions

- `TokenStart`: where a token begins, also one that never ends.
- `Fault.Sited`: a fault whose place fits its cause.
- `ParseError.Placed`: an error whose line, column and offset tell such a place.

## Main statements

- `Decode.readInput_eq_error_cases`: which of the three refuses a text.
- `Decode.sited_of_readInput`: the place of every fault fits its cause.
- `decode_error_placed`: so does the place that an error tells.
-/

namespace JsonTree

open Grammar

/-! ## §1 Places and causes -/

/-- The causes of faults at the end of the input. -/
def endCauses : List Cause := [.unexpectedEnd, .unterminatedArray, .unterminatedObject]

/-- The causes of faults inside of a string. -/
def escapeCauses : List Cause := [.invalidEscape, .invalidUnicodeEscape]

/-- The causes of faults at the first byte of a token. -/
def tokenCauses : List Cause :=
  [.unexpectedCharacter, .invalidNumber, .unterminatedString, .trailingContent, .depthExceeded,
    .invalidLiteral]

/-- The offset at which a token of the input begins, or a string that never ends. -/
inductive TokenStart (input : Bytes) : Nat → Prop where
  | ended {ts : List Token} {t : Token} :
      Token.scan input = .ok ts → t ∈ ts → TokenStart input t.offset
  | unended {before tail : Bytes} {ts : List Token} :
      input = before ++ Byte.quote :: tail → Partition before ts → Unclosed tail →
      TokenStart input before.length

/-- A fault whose place in the input fits its cause. -/
inductive Fault.Sited (input : Bytes) : Fault → Prop where
  /-- Something is missing at the end. -/
  | ending {cause : Cause} : cause ∈ endCauses → Fault.Sited input ⟨cause, input.length⟩
  /-- A token cannot be there, or is itself wrong. -/
  | token {cause : Cause} {offset : Nat} :
      cause ∈ tokenCauses → TokenStart input offset → Fault.Sited input ⟨cause, offset⟩
  /-- An escape is wrong; what is missing of it is noticed at the closing quote at the latest. -/
  | escape {cause : Cause} {ts : List Token} {t : Token} {body : Bytes} {k : Nat} :
      cause ∈ escapeCauses → Token.scan input = .ok ts → t ∈ ts → t.text = quoted body →
      k ≤ body.length → Fault.Sited input ⟨cause, t.offset + 1 + k⟩

variable {input : Bytes} {offset : Nat} {fault : Fault}

/-- A token begins before the end. -/
theorem TokenStart.lt_length (h : TokenStart input offset) : offset < input.length := by
  cases h with
  | ended hscan ht =>
    have hbounds := ((Token.scan_eq_ok_iff input _).mp hscan).1.offset_bounds _ ht
    omega
  | unended hinput _ _ =>
    rw [hinput, List.length_append, List.length_cons]
    omega

/-- A closing quote lies before the end. -/
theorem lt_length_of_quoted {ts : List Token} {t : Token} {body : Bytes}
    (hscan : Token.scan input = .ok ts) (ht : t ∈ ts) (htext : t.text = quoted body) :
    t.offset + 1 + body.length < input.length := by
  have hlength : t.text.length = body.length + 2 := by simp [htext, quoted]
  have hclosing : body.length + 1 < t.text.length := by omega
  obtain ⟨-, hbyte⟩ :=
    ((Token.scan_eq_ok_iff input ts).mp hscan).1.getElem?_token ht hclosing
  rw [List.getElem?_eq_getElem hclosing] at hbyte
  have hinside := (List.getElem?_eq_some_iff.mp hbyte).1
  omega

/-! ## §2 The three that refuse a text -/

namespace Decode

variable {form : Representation} {requested : Nat}

/-- A text is refused when it is split, or by the outline of its tokens, or by the walk at the first
bad token. -/
theorem readInput_eq_error_cases (h : readInput form requested input = .error fault) :
    Token.scan input = .error fault ∨
      (∃ ts, Token.scan input = .ok ts ∧ Token.outline input.length ts = .error fault) ∨
      ∃ v : Node, v.WellFormed ∧ Token.scan input = .ok v.tokens ∧
        FirstBad (effectiveDepth requested) [] v.tokens fault := by
  cases hscan : Token.scan input with
  | error fault' =>
    rw [readInput_of_scan_error form requested hscan] at h
    cases h
    exact .inl rfl
  | ok ts =>
    cases houtline : Token.outline input.length ts with
    | error fault' =>
      rw [readInput_of_outline_error form requested hscan houtline] at h
      cases h
      exact .inr (.inl ⟨ts, rfl, houtline⟩)
    | ok items =>
      obtain ⟨v, hv, rfl, -⟩ := (Token.outline_eq_ok_iff _ _ _).mp houtline
      have hfirst := ((checked_readInput form requested hv hscan).error_iff fault).mp h
      exact .inr (.inr ⟨v, hv, rfl, hfirst⟩)

end Decode

/-- The pass is at fault at the end, or where a string begins that never ends. -/
theorem sited_of_scan (h : Token.scan input = .error fault) : fault.Sited input := by
  rcases (Token.scan_eq_error_iff input fault).mp h with ⟨-, rfl⟩ |
    ⟨before, tail, ts, hinput, hsplits, htail, rfl⟩
  · exact .ending (by decide)
  · exact .token (by decide) (.unended hinput hsplits.partition htail)

/-- The causes of a fault that the outline finds at a token. -/
theorem FaultAt.mem_tokenCauses {before : List Bytes} {l : Bytes} {cause : Cause}
    (h : FaultAt before l cause) : cause ∈ tokenCauses := by
  by_cases hsentence : Sentence before
  · rw [h.trailingContent_iff.mpr hsentence]
    decide
  by_cases hword : TakesValue before ∧ Misspelled l
  · rw [h.invalidLiteral_iff.mpr hword]
    decide
  · rw [h.unexpectedCharacter_iff.mpr ⟨hsentence, hword⟩]
    decide

/-- The outline is at fault at a token, or at the end with a bracket open. -/
theorem sited_of_outline {ts : List Token} (hscan : Token.scan input = .ok ts)
    (h : Token.outline input.length ts = .error fault) : fault.Sited input := by
  obtain ⟨hsplits, hsome⟩ := (Token.scan_eq_ok_iff input ts).mp hscan
  have hearliest := Token.earliestFault_of_outline hsplits hsome h
  obtain ⟨cause, offset⟩ := fault
  -- At a token the cause is told by what comes before it, at the end by the innermost bracket.
  rcases hearliest.placed with ⟨t, ht, hoffset⟩ | hoffset
  · obtain rfl : offset = t.offset := hoffset
    obtain ⟨before, after, hts⟩ := List.append_of_mem ht
    exact .token (hearliest.at_token before t after hts rfl).mem_tokenCauses (.ended hscan ht)
  · obtain rfl : offset = input.length := hoffset
    rcases (hearliest.at_end rfl).innermost with ⟨hcause, -⟩ | ⟨hcause, -⟩
    · obtain rfl : cause = .unterminatedArray := hcause
      exact .ending (by decide)
    · obtain rfl : cause = .unterminatedObject := hcause
      exact .ending (by decide)

/-- What is wrong with an escape. -/
theorem Grammar.FirstBadEscape.mem_escapeCauses {body : Bytes} {cause : Cause} {k : Nat}
    (h : FirstBadEscape body cause k) : cause ∈ escapeCauses := by
  obtain ⟨-, hbad⟩ := h
  cases hbad with
  | letter _ _ => decide
  | digits _ | low _ _ | alone _ _ _ | lowDigits _ _ _ | unpaired _ _ _ _ => decide

/-- A bad token is at fault at its first byte, or at an escape. -/
theorem Token.Bad.sited {limit level : Nat} {ts : List Token} {t : Token}
    (hscan : Token.scan input = .ok ts) (ht : t ∈ ts) (h : t.Bad limit level fault) :
    fault.Sited input := by
  cases h with
  | string htext hbad => exact .escape hbad.mem_escapeCauses hscan ht htext hbad.le_length
  | number _ _ => exact .token (by decide) (.ended hscan ht)
  | scalar _ _ _ _ => exact .token (by decide) (.ended hscan ht)
  | bracket _ _ => exact .token (by decide) (.ended hscan ht)

/-- The place of every fault fits its cause. -/
theorem Decode.sited_of_readInput {form : Representation} {requested : Nat}
    (h : readInput form requested input = .error fault) : fault.Sited input := by
  rcases readInput_eq_error_cases h with hscan | ⟨ts, hscan, houtline⟩ | ⟨v, -, hscan, hfirst⟩
  · exact sited_of_scan hscan
  · exact sited_of_outline hscan houtline
  · obtain ⟨before, t, after, hts, -, hbad⟩ := hfirst
    have ht : t ∈ v.tokens := by
      rw [hts]
      exact List.mem_append_right _ List.mem_cons_self
    exact hbad.sited hscan ht

/-! ## §3 What an error tells -/

/-- An error that tells the place of a fault: the line and the column are those of the offset and of
no other one, and the offset fits the cause. -/
structure ParseError.Placed (input : Bytes) (e : ParseError) : Prop where
  within : e.position.offset ≤ input.length
  line_eq : e.position.line = 1 + (input.take e.position.offset).count Byte.lineFeed
  column_eq : e.position.column = 1 + (Bytes.onLine (input.take e.position.offset)).length
  determined : ∀ offset ≤ input.length,
    (Position.ofOffset input offset).line = e.position.line →
      (Position.ofOffset input offset).column = e.position.column → offset = e.position.offset
  at_end_iff : e.position.offset = input.length ↔ e.cause ∈ endCauses
  at_token : e.cause ∉ endCauses → e.cause ∉ escapeCauses → TokenStart input e.position.offset
  /-- An error in an escape lies behind an opening quote, and not behind the closing one. -/
  in_string : e.cause ∈ escapeCauses →
    ∃ ts t body, Token.scan input = .ok ts ∧ t ∈ ts ∧ t.text = quoted body ∧
      t.offset < e.position.offset ∧ e.position.offset ≤ t.offset + 1 + body.length

namespace Fault.Sited

theorem offset_le (h : fault.Sited input) : fault.offset ≤ input.length := by
  cases h with
  | ending _ => exact Nat.le_refl _
  | token _ hstart => exact Nat.le_of_lt hstart.lt_length
  | escape _ hscan ht htext hk =>
    have := lt_length_of_quoted hscan ht htext
    dsimp only
    omega

/-- A fault lies at the end exactly if its cause is one of the three. -/
theorem offset_eq_length_iff (h : fault.Sited input) :
    fault.offset = input.length ↔ fault.cause ∈ endCauses := by
  have htoken : ∀ cause ∈ tokenCauses, cause ∉ endCauses := by decide
  have hescape : ∀ cause ∈ escapeCauses, cause ∉ endCauses := by decide
  cases h with
  | ending hcause => exact ⟨fun _ => hcause, fun _ => rfl⟩
  | token hcause hstart =>
    exact iff_of_false (Nat.ne_of_lt hstart.lt_length) (htoken _ hcause)
  | escape hcause hscan ht htext hk =>
    refine iff_of_false ?_ (hescape _ hcause)
    have := lt_length_of_quoted hscan ht htext
    dsimp only
    omega

theorem tokenStart (h : fault.Sited input) (hend : fault.cause ∉ endCauses)
    (hescape : fault.cause ∉ escapeCauses) : TokenStart input fault.offset := by
  cases h with
  | ending hcause => exact absurd hcause hend
  | token _ hstart => exact hstart
  | escape hcause _ _ _ _ => exact absurd hcause hescape

theorem in_string (h : fault.Sited input) (hescape : fault.cause ∈ escapeCauses) :
    ∃ ts t body, Token.scan input = .ok ts ∧ t ∈ ts ∧ t.text = quoted body ∧
      t.offset < fault.offset ∧ fault.offset ≤ t.offset + 1 + body.length := by
  have hend : ∀ cause ∈ endCauses, cause ∉ escapeCauses := by decide
  have htoken : ∀ cause ∈ tokenCauses, cause ∉ escapeCauses := by decide
  cases h with
  | ending hcause => exact absurd hescape (hend _ hcause)
  | token hcause _ => exact absurd hescape (htoken _ hcause)
  | @escape _ ts t body k _ hscan ht htext hk =>
    exact ⟨ts, t, body, hscan, ht, htext, by dsimp only; omega, by dsimp only; omega⟩

/-- The error that a fault is reported as tells its place. -/
theorem locate (h : fault.Sited input) : (fault.locate input).Placed input := by
  have hle := h.offset_le
  -- The offset is kept, and line and column are worked out from it.
  have hposition : (fault.locate input).position = Position.ofOffset input fault.offset := rfl
  have hoffset : (fault.locate input).position.offset = fault.offset := by
    rw [hposition, Position.offset_ofOffset hle]
  refine ⟨hoffset ▸ hle, ?_, ?_, fun offset hoffset' hline hcolumn => ?_, ?_, ?_, ?_⟩
  · rw [hoffset, hposition, Position.ofOffset_eq hle]
  · rw [hoffset, hposition, Position.ofOffset_eq hle]
  · rw [hoffset]
    exact Position.offset_eq hoffset' hle hline hcolumn
  · rw [hoffset]
    exact h.offset_eq_length_iff
  · rw [hoffset]
    exact h.tokenStart
  · rw [hoffset]
    exact h.in_string

end Fault.Sited

/-- Every error of decoding tells a place of the input: by its line and its column, which belong to
no other place, and by its offset, which is the end, the start of a token or a byte of a string, as
its cause demands. -/
theorem decode_error_placed {form : Representation} {requested : Nat} {e : ParseError}
    (h : decode form requested input = .error e) : e.Placed input := by
  rw [decode_eq_readInput] at h
  cases hread : Decode.readInput form requested input with
  | ok x =>
    rw [hread] at h
    cases h
  | error fault =>
    rw [hread] at h
    cases h
    exact (Decode.sited_of_readInput hread).locate

/-- An array over two lines, whose only string ends inside of the digits of an escape. -/
def cutDigitsInput : Bytes := Bytes.ofAscii "[\n  \"\\u\"]"

/-- The missing digit is told of in the second line, at the closing quote. -/
theorem decode_error_placed_closingQuote :
    ∃ e, decode .owned 0 cutDigitsInput = .error e ∧ e.cause = .invalidUnicodeEscape ∧
      e.position = ⟨2, 6, 7⟩ ∧ cutDigitsInput[7]? = some Byte.quote ∧ e.Placed cutDigitsInput := by
  have hfault : (match decode .owned 0 cutDigitsInput with
      | .ok _ => none
      | .error e => some (e.cause, e.position)) = some (.invalidUnicodeEscape, ⟨2, 6, 7⟩) := by
    decide +kernel
  cases hdecode : decode .owned 0 cutDigitsInput with
  | ok x =>
    rw [hdecode] at hfault
    cases hfault
  | error e =>
    rw [hdecode] at hfault
    obtain ⟨hcause, hposition⟩ := Prod.mk.inj (Option.some.inj hfault)
    exact ⟨e, rfl, hcause, hposition, by decide, decode_error_placed hdecode⟩

end JsonTree
