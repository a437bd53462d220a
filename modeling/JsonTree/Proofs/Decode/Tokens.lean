import JsonTree.Proofs.Decode.Walk
import JsonTree.Proofs.Number.Read
import JsonTree.Proofs.Token.Layout

/-!
# Single tokens and the grammar

What a single token is in the grammar, and how a division of the input can be put together and taken
apart at its first token. A scalar reaches exactly as far as the literal that it holds, although the
reader of numbers looks for the end of the literal by itself.

## Main statements

- `Splits.eq_of_offset`: no two tokens of a division have one offset.
- `Token.spells_of_readAtom`: an atom that is read spells the value.
- `Token.holdsAtom_word`, `Token.holdsAtom_string`, `Token.holdsAtom_number`: the atoms of the
  grammar are read.
-/

namespace JsonTree

open Grammar

/-! ## §1 Putting divisions together -/

variable {offset : Nat} {bs rest : Bytes} {ts : List Token} {t : Token}

/-- Whitespace in front belongs to the first gap. -/
theorem splits_append {gap : Bytes} (hgap : Blank gap) (h : Splits (offset + gap.length) bs ts) :
    Splits offset (gap ++ bs) ts := by
  induction gap generalizing offset with
  | nil => exact h
  | cons b gap ih =>
    obtain ⟨hb, hgap⟩ := List.forall_mem_cons.mp hgap
    apply Token.splits_cons hb
    apply ih hgap
    rwa [Nat.add_assoc, Nat.add_comm 1]

/-- A piece in front is a token. -/
theorem splits_piece {text : Bytes} (hpiece : Piece text rest)
    (h : Splits (offset + text.length) rest ts) :
    Splits offset (text ++ rest) (⟨offset, text, rest⟩ :: ts) :=
  @Splits.token offset [] text rest ts (fun _ hb => absurd hb List.not_mem_nil) hpiece h

/-- A structural byte in front is a token. -/
theorem splits_structural {b : UInt8} (hb : Byte.isStructural b = true)
    (h : Splits (offset + 1) rest ts) :
    Splits offset (b :: rest) (⟨offset, [b], rest⟩ :: ts) :=
  splits_piece (.structural hb) h

/-! ## §2 Taking divisions apart -/

theorem splits_inv (h : Splits offset bs (t :: ts)) :
    ∃ gap next, bs = gap ++ (t.text ++ t.rest) ∧ Blank gap ∧ Piece t.text t.rest ∧
      Splits next t.rest ts := by
  cases h with
  | token hgap hpiece hrest => exact ⟨_, _, rfl, hgap, hpiece, hrest⟩

theorem Piece.ne_nil {text : Bytes} (h : Piece text rest) : text ≠ [] := by
  cases h <;> simp [quoted]

theorem Splits.pieces (h : Splits offset bs ts) : ∀ t ∈ ts, Piece t.text t.rest := by
  induction h with
  | blank _ => exact fun t ht => absurd ht List.not_mem_nil
  | token _ hpiece _ ih => exact List.forall_mem_cons.mpr ⟨hpiece, ih⟩

/-- The tokens of a division lie inside it. -/
theorem Splits.offset_bounds (h : Splits offset bs ts) :
    ∀ t ∈ ts, offset ≤ t.offset ∧ t.offset < offset + bs.length := by
  induction h with
  | blank _ => exact fun t ht => absurd ht List.not_mem_nil
  | token _ hpiece _ ih =>
    have hpos := List.length_pos_iff.mpr hpiece.ne_nil
    refine List.forall_mem_cons.mpr ⟨?_, fun t ht => ?_⟩
    · simp only [List.length_append]
      omega
    · have hbounds := ih t ht
      simp only [List.length_append]
      omega

/-- A token begins at its offset. -/
theorem Splits.drop_offset (h : Splits offset bs ts) :
    ∀ t ∈ ts, bs.drop (t.offset - offset) = t.tail := by
  induction h with
  | blank _ => exact fun t ht => absurd ht List.not_mem_nil
  | @token offset gap text rest ts _ _ hrest ih =>
    refine List.forall_mem_cons.mpr ⟨?_, fun t ht => ?_⟩
    · rw [Nat.add_sub_cancel_left, List.drop_left, Token.tail]
    · have hbounds := hrest.offset_bounds t ht
      rw [← ih t ht, ← List.append_assoc]
      have hshift : t.offset - offset =
          (gap ++ text).length + (t.offset - (offset + gap.length + text.length)) := by
        rw [List.length_append]
        omega
      rw [hshift, List.drop_length_add_append]

/-- A byte of a token, at its offset in the whole text. -/
theorem Splits.getElem?_token {input : Bytes} (h : Splits 0 input ts) (ht : t ∈ ts) {k : Nat}
    (hk : k < t.text.length) :
    t.offset + k ≤ input.length ∧ input[t.offset + k]? = t.text[k]? := by
  have hdrop : input.drop t.offset = t.tail := h.drop_offset t ht
  have hbyte : input[t.offset + k]? = t.text[k]? := by
    rw [← List.getElem?_drop, hdrop, Token.tail, List.getElem?_append_left hk]
  rw [List.getElem?_eq_getElem hk] at hbyte
  exact ⟨Nat.le_of_lt (List.getElem?_eq_some_iff.mp hbyte).1,
    hbyte.trans (List.getElem?_eq_getElem hk).symm⟩

/-- A token of a division ends before the next one begins. -/
theorem Splits.pairwise_end (h : Splits offset bs ts) :
    ts.Pairwise fun t u => t.offset + t.text.length ≤ u.offset := by
  induction h with
  | blank _ => exact .nil
  | token _ _ hrest ih => exact .cons (fun t ht => (hrest.offset_bounds t ht).1) ih

/-- The tokens of a division stand one after another. -/
theorem Splits.pairwise_offset (h : Splits offset bs ts) :
    ts.Pairwise (·.offset < ·.offset) := by
  refine h.pairwise_end.imp_of_mem fun {t u} ht _ hend => ?_
  have hpos := List.length_pos_iff.mpr (h.pieces t ht).ne_nil
  omega

/-- In a division no two tokens have one offset. -/
theorem Splits.eq_of_offset {before before' after after' : List Token} {t' : Token}
    (h : Splits offset bs ts) (hts : ts = before ++ t :: after)
    (hts' : ts = before' ++ t' :: after') (hoffset : t.offset = t'.offset) :
    before = before' ∧ t = t' := by
  have hpairwise := h.pairwise_offset
  rcases List.append_eq_append_iff.mp (hts.symm.trans hts') with ⟨between, rfl, htail⟩ |
    ⟨between, rfl, htail⟩
  · cases between with
    | nil => exact ⟨(List.append_nil before).symm, (List.cons.inj htail).1⟩
    | cons u between =>
      obtain ⟨rfl, rfl⟩ := List.cons.inj htail
      rw [hts, List.pairwise_append, List.pairwise_cons] at hpairwise
      have hlater := hpairwise.2.1.1 t' (List.mem_append_right _ List.mem_cons_self)
      omega
  · cases between with
    | nil => exact ⟨List.append_nil before', (List.cons.inj htail).1.symm⟩
    | cons u between =>
      obtain ⟨rfl, rfl⟩ := List.cons.inj htail
      rw [hts', List.pairwise_append, List.pairwise_cons] at hpairwise
      have hlater := hpairwise.2.1.1 t (List.mem_append_right _ List.mem_cons_self)
      omega

theorem blank_of_splits_nil (h : Splits offset bs []) : Blank bs := by
  cases h with
  | blank hgap => exact hgap

/-- A token that begins with a structural byte is that byte. -/
theorem text_of_structural (hpiece : Piece t.text t.rest)
    (hhead : Byte.isStructural t.head = true) : t.text = [t.head] := by
  obtain ⟨start, text, rest⟩ := t
  cases hpiece with
  | structural hb => rfl
  | string hbody => cases hhead
  | scalar hb _ _ =>
    have hstructural := ((Token.isDelimiter_eq_false_iff _).mp hb).2.1
    cases hstructural.symm.trans hhead

/-- A token that begins with a quote is a string. -/
theorem text_of_quote (hpiece : Piece t.text t.rest) (hhead : t.head = Byte.quote) :
    ∃ body, t.text = quoted body ∧ Body body := by
  obtain ⟨start, text, rest⟩ := t
  cases hpiece with
  | structural hb =>
    have hb' : Byte.isStructural Byte.quote = true := hhead ▸ hb
    cases hb'
  | string hbody => exact ⟨_, rfl, hbody⟩
  | scalar hb _ _ =>
    have hquote := ((Token.isDelimiter_eq_false_iff _).mp hb).2.2
    exact absurd hhead hquote

/-- The reader of a string gets its body and the closing quote. -/
theorem Token.string_of_quoted {body : Bytes} (h : t.text = quoted body) :
    t.string = Text.read (t.offset + 1) (body ++ Byte.quote :: t.rest) := by
  simp [string, tail, h, quoted]

/-! ## §3 Scalars -/

theorem takeWhile_delimited {run : Bytes} (hrun : ∀ c ∈ run, Byte.isDelimiter c = false)
    (hrest : Delimited rest) : (run ++ rest).takeWhile (! Byte.isDelimiter ·) = run := by
  have hall : ∀ c ∈ run, (! Byte.isDelimiter c) = true := fun c hc => by rw [hrun c hc]; rfl
  have hnone : rest.takeWhile (! Byte.isDelimiter ·) = [] := by
    cases rest with
    | nil => rfl
    | cons b rest =>
      have hb : Byte.isDelimiter b = true := hrest b rfl
      simp [hb]
  rw [List.takeWhile_append_of_pos hall, hnone, List.append_nil]

/-- Two runs that delimiters end are the same run. -/
theorem delimited_unique {run run' rest' : Bytes} (hrun : ∀ c ∈ run, Byte.isDelimiter c = false)
    (hrest : Delimited rest) (hrun' : ∀ c ∈ run', Byte.isDelimiter c = false)
    (hrest' : Delimited rest') (heq : run ++ rest = run' ++ rest') : run = run' := by
  rw [← takeWhile_delimited hrun hrest, heq, takeWhile_delimited hrun' hrest']

/-- What ends a number is a delimiter or the end. -/
theorem delimited_of_endsNumber {root : Bool} (h : Token.endsNumber root rest = true) :
    Delimited rest := by
  intro b hb
  cases rest with
  | nil => cases hb
  | cons c rest =>
    cases hb
    simp only [Token.endsNumber, Bool.or_eq_true, Bool.and_eq_true] at h
    rcases h with hblank | ⟨-, hstructural⟩
    · simp [Byte.isDelimiter, hblank]
    · simp [Byte.isDelimiter, hstructural]

/-! ## §4 Atoms that are read -/

namespace Token

/-- A reader gets the input from the first byte of the token on. -/
theorem head?_tail (hpiece : Piece t.text t.rest) : t.tail.head? = some t.head := by
  unfold head tail
  cases htext : t.text with
  | nil => exact absurd htext hpiece.ne_nil
  | cons b text => rfl

/-- A number that is read takes up the whole of its token. -/
theorem numeral_of_number {root negative : Bool} {n : Number}
    (hscalar : ∀ c ∈ t.text, Byte.isDelimiter c = false) (hrest : Delimited t.rest)
    (hminus : negative = true → t.tail.head? = some Byte.minus)
    (h : t.number root negative = .ok n) : ∃ l, Numeral t.text l ∧ Denotes l n := by
  unfold number at h
  split at h
  · rename_i n' rest hread
    split at h
    · rename_i hends
      cases h
      obtain ⟨text, l, htail, hnumeral, hdenotes⟩ := Number.numeral_of_read hminus hread
      -- The token and the literal begin at the same byte, and a delimiter ends both.
      have htext : t.text = text := delimited_unique hscalar hrest
        (Literal.not_delimiter_of_numeral hnumeral) (delimited_of_endsNumber hends) htail
      exact ⟨l, htext ▸ hnumeral, hdenotes⟩
    · cases h
  · cases h

/-- The kinds of atom that are read. -/
theorem readAtom_cases {form : Representation} {root : Bool} {x : Value}
    (h : t.readAtom form root = .ok x) :
    (t.head = Byte.minus ∧ ∃ n, t.number root true = .ok n ∧ x = .ofNumber n) ∨
      (Byte.isDigit t.head = true ∧ ∃ n, t.number root false = .ok n ∧ x = .ofNumber n) ∨
      (t.head = Byte.quote ∧ ∃ text, t.string = .ok text ∧ x = .string (form.keep text)) ∨
      (t.head = 0x6E ∧ x = .null) ∨ (t.head = 0x74 ∧ x = .bool true) ∨
      (t.head = 0x66 ∧ x = .bool false) := by
  unfold readAtom at h
  by_cases hminus : (t.head == Byte.minus) = true
  · rw [if_pos hminus] at h
    obtain ⟨n, hn, h⟩ := map_eq_ok_iff.mp h
    exact .inl ⟨eq_of_beq hminus, n, hn, h.symm⟩
  rw [if_neg hminus] at h
  by_cases hdigit : Byte.isDigit t.head = true
  · rw [if_pos hdigit] at h
    obtain ⟨n, hn, h⟩ := map_eq_ok_iff.mp h
    exact .inr (.inl ⟨hdigit, n, hn, h.symm⟩)
  rw [if_neg hdigit] at h
  by_cases hquote : (t.head == Byte.quote) = true
  · rw [if_pos hquote] at h
    obtain ⟨text, htext, h⟩ := map_eq_ok_iff.mp h
    exact .inr (.inr (.inl ⟨eq_of_beq hquote, text, htext, h.symm⟩))
  rw [if_neg hquote] at h
  by_cases hnull : (t.head == 0x6E) = true
  · rw [if_pos hnull] at h
    exact .inr (.inr (.inr (.inl ⟨eq_of_beq hnull, (Except.ok.inj h).symm⟩)))
  rw [if_neg hnull] at h
  by_cases htrue : (t.head == 0x74) = true
  · rw [if_pos htrue] at h
    exact .inr (.inr (.inr (.inr (.inl ⟨eq_of_beq htrue, (Except.ok.inj h).symm⟩))))
  rw [if_neg htrue] at h
  by_cases hfalse : (t.head == 0x66) = true
  · rw [if_pos hfalse] at h
    exact .inr (.inr (.inr (.inr (.inr ⟨eq_of_beq hfalse, (Except.ok.inj h).symm⟩))))
  rw [if_neg hfalse] at h
  cases h

/-- A token that is no string and no structural byte is a scalar. -/
theorem scalar_of_piece (hpiece : Piece t.text t.rest)
    (hstructural : Byte.isStructural t.head = false) (hquote : t.head ≠ Byte.quote) :
    (∀ c ∈ t.text, Byte.isDelimiter c = false) ∧ Delimited t.rest := by
  obtain ⟨start, text, rest⟩ := t
  cases hpiece with
  | structural hb => cases hb.symm.trans hstructural
  | string _ => exact absurd rfl hquote
  | scalar hb hbs hrest => exact ⟨List.forall_mem_cons.mpr ⟨hb, hbs⟩, hrest⟩

/-- The kinds of atom that are read, where a number is what the whole token spells. -/
theorem readAtom_kinds {form : Representation} {root : Bool} {x : Value}
    (hpiece : Piece t.text t.rest) (hstructural : Byte.isStructural t.head = false)
    (h : t.readAtom form root = .ok x) :
    (∃ l n, Numeral t.text l ∧ Denotes l n ∧ x = .ofNumber n) ∨
      (t.head = Byte.quote ∧ ∃ text, t.string = .ok text ∧ x = .string (form.keep text)) ∨
      (t.head = 0x6E ∧ x = .null) ∨ (t.head = 0x74 ∧ x = .bool true) ∨
      (t.head = 0x66 ∧ x = .bool false) := by
  have hnumber : ∀ {negative n}, t.head ≠ Byte.quote →
      (negative = true → t.head = Byte.minus) → t.number root negative = .ok n →
      ∃ l n', Numeral t.text l ∧ Denotes l n' ∧ Value.ofNumber n = .ofNumber n' := by
    intro negative n hquote hminus hn
    obtain ⟨hscalar, hrest⟩ := scalar_of_piece hpiece hstructural hquote
    obtain ⟨l, hnumeral, hdenotes⟩ := numeral_of_number hscalar hrest
      (fun h => (head?_tail hpiece).trans (congrArg some (hminus h))) hn
    exact ⟨l, n, hnumeral, hdenotes, rfl⟩
  rcases readAtom_cases h with ⟨hminus, n, hn, rfl⟩ | ⟨hdigit, n, hn, rfl⟩ | hother
  · exact .inl (hnumber (hminus ▸ by decide) (fun _ => hminus) hn)
  · refine .inl (hnumber (fun hquote => ?_) (fun h => Bool.noConfusion h) hn)
    rw [hquote] at hdigit
    cases hdigit
  · exact .inr hother

/-- The letters that begin words begin nothing but scalars. -/
theorem head_of_beginsWord (h : t.beginsWord = true) :
    Byte.isStructural t.head = false ∧ t.head ≠ Byte.quote := by
  have hletter : t.head = 0x74 ∨ t.head = 0x66 ∨ t.head = 0x6E := by
    simpa [beginsWord, or_assoc] using h
  rcases hletter with h | h | h <;> rw [h] <;> decide

/-- A token that begins like a word is looked at up to its own end. -/
theorem isWord_iff (hpiece : Piece t.text t.rest) (hbegins : t.beginsWord = true) :
    t.isWord = true ↔ t.text ∈ words := by
  obtain ⟨hstructural, hquote⟩ := head_of_beginsWord hbegins
  obtain ⟨hscalar, hrest⟩ := scalar_of_piece hpiece hstructural hquote
  rw [isWord, tail, takeWhile_delimited hscalar hrest]
  simp

/-- A scalar that begins like a word and passes the outline is the word with that first byte. -/
theorem text_of_word (hpiece : Piece t.text t.rest)
    (hword : t.beginsWord = true → t.isWord = true) {word : Bytes} (hmem : word ∈ words)
    (hhead : t.head = word.headD 0) : t.text = word := by
  have hunique : ∀ w ∈ words, ∀ w' ∈ words, w.headD 0 = w'.headD 0 → w = w' := by decide
  -- The first byte picks one of the three words.
  have hletters : ∀ w ∈ words, w.headD 0 = 0x74 ∨ w.headD 0 = 0x66 ∨ w.headD 0 = 0x6E := by decide
  have hbegins : t.beginsWord = true := by
    simpa [beginsWord, hhead, or_assoc] using hletters word hmem
  have htext : t.text ∈ words := (isWord_iff hpiece hbegins).mp (hword hbegins)
  exact hunique _ htext _ hmem hhead

/-- An atom that is read spells the value. -/
theorem spells_of_readAtom {root : Bool} {x : Value} {depth : Nat} (hpiece : Piece t.text t.rest)
    (hstructural : Byte.isStructural t.head = false)
    (hword : t.beginsWord = true → t.isWord = true)
    (h : t.readAtom .owned root = .ok x) : Spells depth t.text x := by
  rcases readAtom_kinds hpiece hstructural h with ⟨l, n, hnumeral, hdenotes, rfl⟩ |
    ⟨hquote, text, htext, rfl⟩ | ⟨hnull, rfl⟩ | ⟨htrue, rfl⟩ | ⟨hfalse, rfl⟩
  · exact .number hnumeral hdenotes
  · obtain ⟨body, hbody, hwell⟩ := text_of_quote hpiece hquote
    rw [string_of_quoted hbody] at htext
    rw [hbody]
    exact .string (Text.contents_of_read hwell htext)
  · have htext := text_of_word hpiece hword (List.mem_of_elem_eq_true rfl :
      Bytes.ofAscii "null" ∈ words) hnull
    rw [htext]
    exact .null
  · have htext := text_of_word hpiece hword (List.mem_of_elem_eq_true rfl :
      Bytes.ofAscii "true" ∈ words) htrue
    rw [htext]
    exact .true
  · have htext := text_of_word hpiece hword (List.mem_of_elem_eq_true rfl :
      Bytes.ofAscii "false" ∈ words) hfalse
    rw [htext]
    exact .false

/-! ## §5 Atoms of the grammar -/

variable {depth : Nat} {form : Representation} {root : Bool}

/-- The words and the values that they spell. -/
def wordValues : List (Bytes × Value) :=
  [(Bytes.ofAscii "null", .null), (Bytes.ofAscii "true", .bool true),
    (Bytes.ofAscii "false", .bool false)]

/-- A token that holds an atom: it is one, it passes the outline, and it is read as the value. -/
structure HoldsAtom (form : Representation) (root : Bool) (t : Token) (x : Value) : Prop where
  piece : Piece t.text t.rest
  wellFormed : (Node.atom t).WellFormed
  read : t.readAtom form root = .ok x

/-- A word in front of a delimiter is a token that passes the outline. -/
theorem wellFormed_word {word : Bytes} (hword : word ∈ words) (hrest : Delimited rest) :
    Piece word rest ∧ (Node.atom ⟨offset, word, rest⟩).WellFormed := by
  have hall : ∀ w ∈ words, (w.all fun c => !Byte.isDelimiter c) = true := by decide
  have hscalar : ∀ c ∈ word, Byte.isDelimiter c = false := by simpa using hall word hword
  cases word with
  | nil => exact absurd hword (by decide)
  | cons b bs =>
    obtain ⟨hb, hbs⟩ := List.forall_mem_cons.mp hscalar
    refine ⟨.scalar hb hbs hrest, ((isDelimiter_eq_false_iff b).mp hb).2.1, fun _ => ?_⟩
    rw [isWord, tail, takeWhile_delimited hscalar hrest]
    simpa using hword

/-- A word is read as its value. -/
theorem holdsAtom_word {word : Bytes} {x : Value} (hmem : (word, x) ∈ wordValues)
    (hrest : Delimited rest) : HoldsAtom form root ⟨offset, word, rest⟩ x := by
  have hwords : ∀ e ∈ wordValues, e.1 ∈ words := by
    simp [wordValues, words]
  obtain ⟨hpiece, hwell⟩ := wellFormed_word (hwords _ hmem) hrest
  refine ⟨hpiece, hwell, ?_⟩
  simp only [wordValues, List.mem_cons, Prod.mk.injEq, List.not_mem_nil, or_false] at hmem
  rcases hmem with ⟨rfl, rfl⟩ | ⟨rfl, rfl⟩ | ⟨rfl, rfl⟩ <;> rfl

/-- Contents of the grammar between quotes are read as the text that they denote. -/
theorem holdsAtom_string {contents text : Bytes} (h : Contents contents text) :
    HoldsAtom .owned root ⟨offset, quoted contents, rest⟩ (.string (.owned text)) := by
  obtain ⟨t, hread, htext⟩ := Text.read_contents h (offset + 1) rest
  refine ⟨.string (body_of_contents h), ⟨rfl, fun h => by cases h⟩, ?_⟩
  have hatom : (⟨offset, quoted contents, rest⟩ : Token).readAtom .owned root =
      (fun text => Value.string (Representation.owned.keep text)) <$>
        (⟨offset, quoted contents, rest⟩ : Token).string := rfl
  rw [hatom, string_of_quoted rfl, hread, ← htext]
  rfl

/-- A numeral that is properly ended is read as the number that it denotes. -/
theorem holdsAtom_number {text : Bytes} {l : Literal} {n : Number} (h : Numeral text l)
    (hdenotes : Denotes l n) (hends : endsNumber root rest = true) :
    HoldsAtom form root ⟨offset, text, rest⟩ (.ofNumber n) := by
  have hread := Number.read_numeral h hdenotes (delimited_of_endsNumber hends)
  have hnumber : (⟨offset, text, rest⟩ : Token).number root l.negative = .ok n := by
    simp only [number, tail, hread, hends, if_true]
  have hscalar := Literal.not_delimiter_of_numeral h
  obtain ⟨b, bs, rfl, hhead⟩ := Literal.numeral_head h
  obtain ⟨hb, hbs⟩ := List.forall_mem_cons.mp hscalar
  have hstructural := ((isDelimiter_eq_false_iff b).mp hb).2.1
  refine ⟨.scalar hb hbs (delimited_of_endsNumber hends), ⟨hstructural, ?_⟩, ?_⟩
  · intro hbegins
    have hletter : b = 0x74 ∨ b = 0x66 ∨ b = 0x6E := by
      simpa [beginsWord, head, or_assoc] using hbegins
    have hfirst : ∀ c ∈ [0x74, 0x66, 0x6E], c ≠ Byte.minus ∧ Byte.isDigit c = false :=
      List.all_iff_forall_prop.mp (by decide)
    obtain ⟨hminus, hdigit⟩ := hfirst b (by simpa using hletter)
    -- Neither a minus nor a digit is the first letter of a word.
    rcases hhead with ⟨-, heq⟩ | ⟨-, heq⟩
    · exact absurd heq hminus
    · cases hdigit.symm.trans heq
  · rcases hhead with ⟨hnegative, rfl⟩ | ⟨hnegative, hdigit⟩
    · have hatom : (⟨offset, Byte.minus :: bs, rest⟩ : Token).readAtom form root =
          Value.ofNumber <$> (⟨offset, Byte.minus :: bs, rest⟩ : Token).number root true := rfl
      rw [hatom, ← hnegative, hnumber]
      rfl
    · have hminus : (b == Byte.minus) = false := by
        rw [beq_eq_false_iff_ne]
        rintro rfl
        cases hdigit
      rw [hnegative] at hnumber
      simp only [readAtom, head, List.headD_cons, hminus, hdigit, hnumber, if_true,
        Bool.false_eq_true, if_false]
      rfl

end Token

end JsonTree
