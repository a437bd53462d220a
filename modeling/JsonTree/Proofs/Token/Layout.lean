import JsonTree.Proofs.Number.Syntax
import JsonTree.Proofs.Text.Contents
import JsonTree.Token.Scan

/-!
# How tokens lie in the input

The pass over the input moves byte by byte. What it finds is described without the pass: gaps of
whitespace and tokens follow each other up to the end, and each token reaches as far as its kind
allows. The pass finds exactly this division, and the division is found in every input that has one.

## Main definitions

- `Piece`: the bytes of a token, before given other bytes.
- `Unclosed`: what follows an opening quote where the string never ends.
- `Splits`: the division of an input into gaps and tokens.

## Main statements

- `Token.runFrom_scalar`, `Token.runFrom_string`: what the pass does in the middle of a token.
- `Token.splits_or_unclosed`: every input has a division, or has one up to a string without an end.
- `Token.scan_eq_ok_iff`, `Token.scan_eq_error_iff`: the pass finds the division, and is at fault
  where there is no token or no end.
-/

namespace JsonTree

open Grammar

/-- The bytes of a token, and what may follow them: a scalar is ended by a delimiter or the end. -/
inductive Piece : Bytes → Bytes → Prop where
  | structural {b : UInt8} {rest : Bytes} : Byte.isStructural b = true → Piece [b] rest
  | string {body rest : Bytes} : Body body → Piece (quoted body) rest
  | scalar {b : UInt8} {bs rest : Bytes} :
      Byte.isDelimiter b = false → (∀ c ∈ bs, Byte.isDelimiter c = false) → Delimited rest →
      Piece (b :: bs) rest

/-- What follows an opening quote where no unprotected quote closes the string. -/
def Unclosed (bs : Bytes) : Prop := ¬ ∃ body rest, Body body ∧ bs = body ++ Byte.quote :: rest

/-- The division of an input, which begins at an offset, into gaps and tokens. -/
inductive Splits : Nat → Bytes → List Token → Prop where
  | blank {offset : Nat} {gap : Bytes} : Blank gap → Splits offset gap []
  | token {offset : Nat} {gap text rest : Bytes} {ts : List Token} :
      Blank gap → Piece text rest → Splits (offset + gap.length + text.length) rest ts →
      Splits offset (gap ++ (text ++ rest)) (⟨offset + gap.length, text, rest⟩ :: ts)

namespace Token

/-! ## §1 Kinds of bytes -/

theorem isDelimiter_eq_false_iff (b : UInt8) :
    Byte.isDelimiter b = false ↔
      Byte.isWhitespace b = false ∧ Byte.isStructural b = false ∧ b ≠ Byte.quote := by
  simp [Byte.isDelimiter, and_assoc]

/-- A structural byte is no whitespace. -/
theorem not_whitespace_of_structural {b : UInt8} (hb : Byte.isStructural b = true) :
    Byte.isWhitespace b = false := by
  have hall : ∀ b ∈ [Byte.openObject, Byte.closeObject, Byte.openArray, Byte.closeArray,
      Byte.colon, Byte.comma], Byte.isWhitespace b = false :=
    List.all_iff_forall_prop.mp (by decide)
  apply hall
  simpa [Byte.isStructural, or_assoc] using hb

theorem fresh_whitespace {b : UInt8} (hb : Byte.isWhitespace b = true) (offset : Nat) :
    Mode.fresh offset b = .gap := by
  simp [Mode.fresh, hb]

theorem fresh_structural {b : UInt8} (hb : Byte.isStructural b = true) (offset : Nat) :
    Mode.fresh offset b = .start .between := by
  simp [Mode.fresh, hb, not_whitespace_of_structural hb]

theorem fresh_quote (offset : Nat) : Mode.fresh offset Byte.quote = .start (.string offset) := rfl

theorem fresh_scalar {b : UInt8} (hb : Byte.isDelimiter b = false) (offset : Nat) :
    Mode.fresh offset b = .start .scalar := by
  obtain ⟨hblank, hstructural, hquote⟩ := (isDelimiter_eq_false_iff b).mp hb
  simp [Mode.fresh, hblank, hstructural, hquote]

theorem move_raw {b : UInt8} (hquote : b ≠ Byte.quote) (hbackslash : b ≠ Byte.backslash)
    (opened offset : Nat) : (Mode.string opened).move offset b = .extend (.string opened) := by
  simp [Mode.move, hquote, hbackslash]

theorem move_backslash (opened offset : Nat) :
    (Mode.string opened).move offset Byte.backslash = .extend (.escaped opened) := rfl

theorem move_protected (opened offset : Nat) (b : UInt8) :
    (Mode.escaped opened).move offset b = .extend (.string opened) := rfl

/-! ## §2 The pass inside a token -/

variable {offset : Nat} {bs rest : Bytes} {run : Run}

/-- Between tokens no byte is left over to complete one. -/
theorem run_between (h : runFrom .between offset bs = .ok run) : run = ⟨[], bs, run.tokens⟩ := by
  cases bs with
  | nil =>
    cases h
    rfl
  | cons b bs =>
    rw [runFrom] at h
    cases hmove : Mode.between.move offset b with
    | gap =>
      rw [hmove] at h
      obtain ⟨run', -, h⟩ := bind_eq_ok_iff.mp h
      cases h
      rfl
    | start next =>
      rw [hmove] at h
      obtain ⟨run', -, h⟩ := bind_eq_ok_iff.mp h
      cases h
      rfl
    -- Between tokens a byte never extends a token.
    | extend next =>
      have hfresh : Mode.fresh offset b = .extend next := hmove
      unfold Mode.fresh at hfresh
      split at hfresh
      · cases hfresh
      · split at hfresh
        · cases hfresh
        · split at hfresh <;> cases hfresh

/-- The pass takes scalar bytes up to the first delimiter, and goes on between tokens. -/
theorem runFrom_scalar {cs : Bytes} (hcs : ∀ c ∈ cs, Byte.isDelimiter c = false)
    (hrest : Delimited rest) :
    runFrom .scalar offset (cs ++ rest) =
      (runFrom .between (offset + cs.length) rest).map fun run => ⟨cs, rest, run.tokens⟩ := by
  induction cs generalizing offset with
  | nil =>
    cases rest with
    | nil => rfl
    | cons b rest =>
      have hb : Byte.isDelimiter b = true := hrest b rfl
      -- In a scalar and between tokens a delimiter makes the same move.
      have hmove : Mode.scalar.move offset b = Mode.between.move offset b := by
        simp only [Mode.move, hb, if_true]
      have hsame : runFrom .scalar offset (b :: rest) = runFrom .between offset (b :: rest) := by
        rw [runFrom, runFrom, hmove]
      rw [List.nil_append, hsame, List.length_nil, Nat.add_zero]
      cases hrun : runFrom .between offset (b :: rest) with
      | error fault => rfl
      | ok run =>
        rw [run_between hrun]
        rfl
  | cons c cs ih =>
    obtain ⟨hc, hcs⟩ := List.forall_mem_cons.mp hcs
    have hmove : Mode.scalar.move offset c = .extend .scalar := by
      simp only [Mode.move, hc, Bool.false_eq_true, if_false]
    rw [List.cons_append, runFrom, hmove]
    simp only []
    rw [ih hcs, List.length_cons, Nat.add_right_comm, Nat.add_assoc]
    cases runFrom .between (offset + (cs.length + 1)) rest <;> rfl

/-- The pass takes the body of a string up to its closing quote, and goes on between tokens. -/
theorem runFrom_string {opened : Nat} {body : Bytes} (hbody : Body body) :
    runFrom (.string opened) offset (body ++ Byte.quote :: rest) =
      (runFrom .between (offset + body.length + 1) rest).map fun run =>
        ⟨body ++ [Byte.quote], rest, run.tokens⟩ := by
  induction hbody generalizing offset with
  | empty =>
    have hmove : (Mode.string opened).move offset Byte.quote = .extend .between := rfl
    rw [List.nil_append, runFrom, hmove]
    simp only [List.length_nil, Nat.add_zero]
    cases hrun : runFrom .between (offset + 1) rest with
    | error fault => rfl
    | ok run =>
      rw [run_between hrun]
      rfl
  | @raw b bs hquote hbackslash _ ih =>
    rw [List.cons_append, runFrom, move_raw hquote hbackslash]
    simp only []
    rw [ih, List.length_cons, Nat.add_right_comm offset, ← Nat.add_assoc]
    cases runFrom .between (offset + bs.length + 1 + 1) rest <;> rfl
  | @escaped b bs _ ih =>
    -- Two moves: the backslash protects, and the protected byte is taken whatever it is.
    rw [List.cons_append, List.cons_append, runFrom, move_backslash]
    simp only []
    rw [runFrom, move_protected]
    simp only []
    rw [ih, List.length_cons, List.length_cons]
    have hoffset : offset + 1 + 1 + bs.length + 1 = offset + (bs.length + 1 + 1) + 1 := by omega
    rw [hoffset]
    cases runFrom .between (offset + (bs.length + 1 + 1) + 1) rest <;> rfl

/-- Without a closing quote the pass is at fault where the string was opened. -/
theorem runFrom_unclosed {opened : Nat} (h : Unclosed bs) :
    runFrom (.string opened) offset bs = .error ⟨.unterminatedString, opened⟩ := by
  -- A protected byte is passed together with its backslash, so the induction is on the length.
  induction hlength : bs.length using Nat.strongRecOn generalizing offset bs with
  | ind n ih =>
    cases bs with
    | nil => rfl
    | cons b bs =>
      rw [List.length_cons] at hlength
      by_cases hquote : b = Byte.quote
      · exact absurd ⟨[], bs, .empty, by rw [hquote]; rfl⟩ h
      · by_cases hbackslash : b = Byte.backslash
        · subst hbackslash
          rw [runFrom, move_backslash]
          cases bs with
          | nil => rfl
          | cons c bs =>
            have hbs : Unclosed bs := fun ⟨body, rest, hbody, hclosed⟩ =>
              h ⟨Byte.backslash :: c :: body, rest, .escaped hbody, by rw [hclosed]; rfl⟩
            rw [List.length_cons] at hlength
            simp only [runFrom, move_protected]
            rw [ih bs.length (by omega) hbs rfl]
            rfl
        · have hbs : Unclosed bs := fun ⟨body, rest, hbody, hclosed⟩ =>
            h ⟨b :: body, rest, .raw hquote hbackslash hbody, by rw [hclosed]; rfl⟩
          rw [runFrom, move_raw hquote hbackslash]
          simp only []
          rw [ih bs.length (by omega) hbs rfl]
          rfl

/-! ## §3 The whole pass -/

/-- Where a run of scalar bytes ends, a delimiter or the end follows. -/
theorem delimited_dropWhile (bs : Bytes) :
    Delimited (bs.dropWhile (! Byte.isDelimiter ·)) := by
  induction bs with
  | nil =>
    intro b hb
    cases hb
  | cons c bs ih =>
    cases hc : Byte.isDelimiter c with
    | false => simpa [List.dropWhile_cons, hc] using ih
    | true =>
      intro b hb
      have hbc : c = b := by simpa [List.dropWhile_cons, hc] using hb
      exact hbc ▸ hc

/-- Every byte that is no whitespace begins a piece, or it opens a string without an end. -/
theorem piece_or_unclosed {b : UInt8} (hblank : Byte.isWhitespace b = false) (bs : Bytes) :
    (∃ text rest, b :: bs = text ++ rest ∧ Piece text rest ∧ text ≠ []) ∨
      b = Byte.quote ∧ Unclosed bs := by
  by_cases hstructural : Byte.isStructural b = true
  · exact .inl ⟨[b], bs, rfl, .structural hstructural, by simp⟩
  by_cases hquote : b = Byte.quote
  · by_cases hclosed : ∃ body rest, Body body ∧ bs = body ++ Byte.quote :: rest
    · obtain ⟨body, rest, hbody, rfl⟩ := hclosed
      exact .inl ⟨quoted body, rest, by simp [quoted, hquote], .string hbody, by simp [quoted]⟩
    · exact .inr ⟨hquote, hclosed⟩
  · have hscalar : Byte.isDelimiter b = false :=
      (isDelimiter_eq_false_iff b).mpr ⟨hblank, by simpa using hstructural, hquote⟩
    -- A scalar is not checked here, so it is whatever stands before the next delimiter.
    refine .inl ⟨b :: bs.takeWhile (! Byte.isDelimiter ·), bs.dropWhile (! Byte.isDelimiter ·), ?_,
      .scalar hscalar ?_ (delimited_dropWhile bs), by simp⟩
    · rw [List.cons_append, List.takeWhile_append_dropWhile]
    · intro c hc
      have hall := List.all_eq_true.mp List.all_takeWhile c hc
      simpa using hall

/-- The pass takes a piece as a token and goes on after it. -/
theorem runFrom_piece {text : Bytes} (h : Piece text rest) :
    runFrom .between offset (text ++ rest) =
      (runFrom .between (offset + text.length) rest).map fun run =>
        ⟨[], text ++ rest, ⟨offset, text, rest⟩ :: run.tokens⟩ := by
  cases h with
  | @structural b _ hb =>
    have hmove : Mode.between.move offset b = .start .between := fresh_structural hb offset
    rw [List.singleton_append, runFrom, hmove]
    simp only [List.length_singleton]
    cases hrun : runFrom .between (offset + 1) rest with
    | error fault => rfl
    | ok run =>
      rw [run_between hrun]
      rfl
  | @string body _ hbody =>
    have hmove : Mode.between.move offset Byte.quote = .start (.string offset) := fresh_quote offset
    -- The opening quote starts the token, and the closing one is its last byte.
    have hsplit : quoted body ++ rest = Byte.quote :: (body ++ Byte.quote :: rest) := by
      simp [quoted]
    have hlength : (quoted body).length = body.length + 2 := by simp [quoted]
    rw [hsplit, runFrom, hmove]
    simp only []
    have hoffset : offset + 1 + body.length + 1 = offset + (quoted body).length := by omega
    rw [runFrom_string hbody, hoffset]
    cases runFrom .between (offset + (quoted body).length) rest with
    | error fault => rfl
    | ok run => rfl
  | @scalar b cs _ hb hcs hrest =>
    have hmove : Mode.between.move offset b = .start .scalar := fresh_scalar hb offset
    rw [List.cons_append, runFrom, hmove]
    simp only []
    rw [runFrom_scalar hcs hrest, List.length_cons, Nat.add_right_comm, Nat.add_assoc]
    cases runFrom .between (offset + (cs.length + 1)) rest <;> rfl

/-- The pass goes over a gap. -/
theorem runFrom_blank {gap : Bytes} (h : Blank gap) :
    runFrom .between offset (gap ++ bs) =
      (runFrom .between (offset + gap.length) bs).map fun run => ⟨[], gap ++ bs, run.tokens⟩ := by
  induction gap generalizing offset with
  | nil =>
    rw [List.nil_append, List.length_nil, Nat.add_zero]
    cases hrun : runFrom .between offset bs with
    | error fault => rfl
    | ok run => exact congrArg Except.ok (run_between hrun)
  | cons b gap ih =>
    obtain ⟨hb, hgap⟩ := List.forall_mem_cons.mp h
    have hmove : Mode.between.move offset b = .gap := fresh_whitespace hb offset
    rw [List.cons_append, runFrom, hmove]
    simp only []
    rw [ih hgap, List.length_cons, Nat.add_right_comm, Nat.add_assoc]
    cases runFrom .between (offset + (gap.length + 1)) bs <;> rfl

/-- A division is found by the pass. -/
theorem runFrom_splits {ts : List Token} (h : Splits offset bs ts) :
    runFrom .between offset bs = .ok ⟨[], bs, ts⟩ := by
  induction h with
  | @blank offset gap hgap =>
    have hrun := @runFrom_blank offset [] gap hgap
    rwa [List.append_nil] at hrun
  | token hgap hpiece _ ih =>
    rw [runFrom_blank hgap, runFrom_piece hpiece, ih]
    rfl

/-- A byte of whitespace in front belongs to the first gap. -/
theorem splits_cons {b : UInt8} {ts : List Token} (hb : Byte.isWhitespace b = true)
    (h : Splits (offset + 1) bs ts) : Splits offset (b :: bs) ts := by
  cases h with
  | blank hgap => exact .blank (List.forall_mem_cons.mpr ⟨hb, hgap⟩)
  | @token _ gap text rest ts hgap hpiece hrest =>
    have hgap' : Blank (b :: gap) := List.forall_mem_cons.mpr ⟨hb, hgap⟩
    have hoffset : offset + 1 + gap.length = offset + (b :: gap).length := by
      rw [List.length_cons]
      omega
    rw [hoffset] at hrest ⊢
    exact .token hgap' hpiece hrest

/-- A piece in front of less is a piece. -/
theorem piece_of_append {text more : Bytes} (h : Piece text (rest ++ more)) : Piece text rest := by
  cases h with
  | structural hb => exact .structural hb
  | string hbody => exact .string hbody
  | scalar hb hbs hrest =>
    refine .scalar hb hbs fun c hc => hrest c ?_
    rw [List.head?_append, hc]
    rfl

/-- A piece in front of more is a piece, if what is added begins with a quote. -/
theorem piece_append_quote {text tail : Bytes} (h : Piece text rest) :
    Piece text (rest ++ Byte.quote :: tail) := by
  cases h with
  | structural hb => exact .structural hb
  | string hbody => exact .string hbody
  | scalar hb hbs hrest =>
    refine .scalar hb hbs fun c hc => ?_
    cases rest with
    | nil =>
      cases hc
      rfl
    | cons c' rest => exact hrest c hc

/-- Every input has a division, or it has one up to a quote that opens a string without an end. -/
theorem splits_or_unclosed (offset : Nat) (bs : Bytes) :
    (∃ ts, Splits offset bs ts) ∨
      ∃ before tail ts, bs = before ++ Byte.quote :: tail ∧ Splits offset before ts ∧
        Unclosed tail := by
  -- A token is passed as a whole, so the induction is on the length.
  induction hlength : bs.length using Nat.strongRecOn generalizing offset bs with
  | ind n ih =>
    cases bs with
    | nil => exact .inl ⟨[], .blank fun b hb => absurd hb List.not_mem_nil⟩
    | cons b bs =>
      cases hblank : Byte.isWhitespace b with
      | true =>
        rw [List.length_cons] at hlength
        rcases ih bs.length (by omega) (offset + 1) bs rfl with ⟨ts, hsplits⟩ |
          ⟨before, tail, ts, rfl, hsplits, hunclosed⟩
        · exact .inl ⟨ts, splits_cons hblank hsplits⟩
        · exact .inr ⟨b :: before, tail, ts, rfl, splits_cons hblank hsplits, hunclosed⟩
      | false =>
        have hnone : Blank [] := fun b hb => absurd hb List.not_mem_nil
        rcases piece_or_unclosed hblank bs with ⟨text, rest, hsplit, hpiece, htext⟩ |
          ⟨rfl, hunclosed⟩
        · rw [hsplit] at hlength ⊢
          -- A piece is never empty, so what follows it is shorter.
          have hshorter : rest.length < n := by
            have := List.length_pos_iff.mpr htext
            rw [List.length_append] at hlength
            omega
          rcases ih rest.length hshorter (offset + text.length) rest rfl with ⟨ts, hsplits⟩ |
            ⟨before, tail, ts, rfl, hsplits, hunclosed⟩
          · exact .inl ⟨_, .token hnone hpiece hsplits⟩
          · exact .inr ⟨text ++ before, tail, _, (List.append_assoc ..).symm,
              .token hnone (piece_of_append hpiece) hsplits, hunclosed⟩
        · exact .inr ⟨[], bs, [], rfl, .blank hnone, hunclosed⟩

/-- A string without an end is at fault where the division up to it ends. -/
theorem runFrom_append_unclosed {before tail : Bytes} {ts : List Token}
    (h : Splits offset before ts) (htail : Unclosed tail) :
    runFrom .between offset (before ++ Byte.quote :: tail) =
      .error ⟨.unterminatedString, offset + before.length⟩ := by
  induction h with
  | blank hgap =>
    rw [runFrom_blank hgap, runFrom]
    simp only [Mode.move, fresh_quote]
    rw [runFrom_unclosed htail]
    rfl
  | @token offset gap text rest ts hgap hpiece _ ih =>
    have hlength : offset + (gap ++ (text ++ rest)).length =
        offset + gap.length + text.length + rest.length := by
      simp only [List.length_append]
      omega
    rw [List.append_assoc, List.append_assoc, runFrom_blank hgap,
      runFrom_piece (piece_append_quote hpiece), ih, hlength]
    rfl

/-- What the pass finds is a division. -/
theorem splits_of_runFrom (h : runFrom .between offset bs = .ok run) :
    Splits offset bs run.tokens := by
  rcases splits_or_unclosed offset bs with ⟨ts, hsplits⟩ | ⟨before, tail, ts, rfl, hsplits, htail⟩
  · rw [runFrom_splits hsplits] at h
    cases h
    exact hsplits
  · rw [runFrom_append_unclosed hsplits htail] at h
    cases h

/-- The pass finds the division of an input into gaps and tokens. -/
theorem scan_eq_ok_iff (input : Bytes) (ts : List Token) :
    scan input = .ok ts ↔ Splits 0 input ts ∧ ts ≠ [] := by
  constructor
  · intro h
    obtain ⟨run, hrun, h⟩ := bind_eq_ok_iff.mp h
    split at h
    · cases h
    · rename_i hsome
      cases h
      exact ⟨splits_of_runFrom hrun, by simpa using hsome⟩
  · rintro ⟨h, hsome⟩
    have hempty : ts.isEmpty = false := by simpa using hsome
    unfold scan
    rw [runFrom_splits h]
    simp only [bind, Except.bind, hempty, Bool.false_eq_true, if_false]

/-- The pass is at fault at the end of an input without tokens, or at the quote that opens a string
without an end. -/
theorem scan_eq_error_iff (input : Bytes) (fault : Fault) :
    scan input = .error fault ↔
      Splits 0 input [] ∧ fault = ⟨.unexpectedEnd, input.length⟩ ∨
        ∃ before tail ts, input = before ++ Byte.quote :: tail ∧ Splits 0 before ts ∧
          Unclosed tail ∧ fault = ⟨.unterminatedString, before.length⟩ := by
  have hblank : Splits 0 input [] → scan input = .error ⟨.unexpectedEnd, input.length⟩ := by
    intro h
    rw [scan, runFrom_splits h]
    rfl
  have hopened : ∀ before tail ts, input = before ++ Byte.quote :: tail → Splits 0 before ts →
      Unclosed tail → scan input = .error ⟨.unterminatedString, before.length⟩ := by
    rintro before tail ts rfl hsplits htail
    rw [scan, runFrom_append_unclosed hsplits htail, Nat.zero_add]
    rfl
  constructor
  · intro h
    rcases splits_or_unclosed 0 input with ⟨ts, hsplits⟩ |
      ⟨before, tail, ts, hinput, hsplits, htail⟩
    · cases ts with
      | nil =>
        rw [hblank hsplits] at h
        cases h
        exact .inl ⟨hsplits, rfl⟩
      | cons t ts =>
        have hscan := (scan_eq_ok_iff input _).mpr ⟨hsplits, List.cons_ne_nil t ts⟩
        cases hscan.symm.trans h
    · rw [hopened before tail ts hinput hsplits htail] at h
      cases h
      exact .inr ⟨before, tail, ts, hinput, hsplits, htail, rfl⟩
  · rintro (⟨hsplits, rfl⟩ | ⟨before, tail, ts, hinput, hsplits, htail, rfl⟩)
    · exact hblank hsplits
    · exact hopened before tail ts hinput hsplits htail

end Token

end JsonTree
