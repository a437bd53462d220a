import JsonTree.Proofs.Decode.Tokens

/-!
# How the tokens share the input

The pass gives every byte of the input to one token, except for the whitespace outside of strings,
which it gives to none. A token reaches as far as its kind allows: a structural byte stands alone, a
string ends at the quote that no backslash protects, and a scalar is a run that cannot be made
longer on either side. Two things can stop the pass: there is no token at all, or a string has no
end.

## Main definitions

- `Token.Contains`: the offsets of the bytes of a token.
- `Token.Extent`: how far a token reaches, by its kind.
- `Partition`: tokens that share an input in this way.

## Main statements

- `Splits.partition`, `Partition.splits`: tokens share an input exactly if they are its division.
- `Token.scan_partition`: the pass finds the tokens that share the input, and fails exactly where
  there are none.
-/

namespace JsonTree

open Grammar

variable {input bs before after rest : Bytes} {offset : Nat} {ts : List Token} {t : Token}

/-! ## §1 Extents -/

/-- The offset of a byte of the token. -/
def Token.Contains (t : Token) (i : Nat) : Prop := t.offset ≤ i ∧ i < t.offset + t.text.length

/-- How far a token of an input reaches, by its kind. -/
inductive Token.Extent (input : Bytes) (t : Token) : Prop where
  /-- One structural byte. -/
  | structural : Byte.isStructural t.head = true → t.text = [t.head] → Token.Extent input t
  /-- An opening quote and all that follows, through the quote that no backslash protects. -/
  | string {body : Bytes} : t.text = quoted body → Body body → Token.Extent input t
  /-- A longest run of bytes that are no delimiters: on both sides is a delimiter, or nothing. -/
  | scalar :
      t.text ≠ [] → (∀ c ∈ t.text, Byte.isDelimiter c = false) →
      (∀ b, (input.take t.offset).getLast? = some b → Byte.isDelimiter b = true) →
      Delimited t.rest → Token.Extent input t

/-- Tokens that share an input: each byte belongs to one of them, or is whitespace outside of the
strings. -/
structure Partition (input : Bytes) (ts : List Token) : Prop where
  placed : ∀ t ∈ ts, input.drop t.offset = t.text ++ t.rest
  extent : ∀ t ∈ ts, t.Extent input
  increasing : ts.Pairwise (·.offset < ·.offset)
  disjoint : ts.Pairwise fun t u => ∀ i, ¬ (t.Contains i ∧ u.Contains i)
  /-- A byte belongs to no token exactly if it is whitespace outside of every string. -/
  gaps : ∀ i b, input[i]? = some b →
    ((∀ t ∈ ts, ¬ t.Contains i) ↔
      Byte.isWhitespace b = true ∧ ∀ t ∈ ts, t.head = Byte.quote → ¬ t.Contains i)

namespace Token.Extent

theorem ne_nil (h : t.Extent input) : t.text ≠ [] := by
  cases h with
  | structural _ htext => rw [htext]; exact List.cons_ne_nil _ _
  | string htext _ => rw [htext]; exact List.cons_ne_nil _ _
  | scalar hsome _ _ _ => exact hsome

/-- What reaches as far as its kind allows is a piece. -/
theorem piece (h : t.Extent input) : Piece t.text t.rest := by
  cases h with
  | structural hhead htext => exact htext ▸ .structural hhead
  | string htext hbody => exact htext ▸ .string hbody
  | scalar hsome hscalar _ hrest =>
    cases htext : t.text with
    | nil => exact absurd htext hsome
    | cons b bs =>
      rw [htext] at hscalar
      obtain ⟨hb, hbs⟩ := List.forall_mem_cons.mp hscalar
      exact .scalar hb hbs hrest

/-- Only strings contain whitespace. -/
theorem head_of_whitespace (h : t.Extent input) {b : UInt8} (hb : b ∈ t.text)
    (hblank : Byte.isWhitespace b = true) : t.head = Byte.quote := by
  cases h with
  | structural hhead htext =>
    rw [htext, List.mem_singleton] at hb
    have hnot := Token.not_whitespace_of_structural hhead
    rw [← hb, hblank] at hnot
    cases hnot
  | string htext _ => rw [Token.head, htext]; rfl
  | scalar _ hscalar _ _ =>
    have hnot := ((Token.isDelimiter_eq_false_iff b).mp (hscalar b hb)).1
    rw [hblank] at hnot
    cases hnot

end Token.Extent

/-! ## §2 Divisions share the input -/

/-- No run goes on from the one side to the other: next to the border is a delimiter or nothing. -/
def NoRunAcross (before after : Bytes) : Prop :=
  ∀ b c, before.getLast? = some b → after.head? = some c →
    Byte.isDelimiter b = true ∨ Byte.isDelimiter c = true

/-- No run goes on across the end of a gap. -/
theorem NoRunAcross.append_blank {gap : Bytes} (h : NoRunAcross before (gap ++ after))
    (hgap : Blank gap) : NoRunAcross (before ++ gap) after := by
  intro b c hb hc
  cases gap using List.reverseRecOn with
  | nil => exact h b c (by simpa using hb) hc
  | append_singleton gap b' _ =>
    -- The byte in front of the border is whitespace.
    obtain rfl : b' = b := by simpa [← List.append_assoc] using hb
    exact .inl (by simp [Byte.isDelimiter, hgap b' (by simp)])

/-- No run goes on across the end of a token. -/
theorem noRunAcross_piece {text : Bytes} (hpiece : Piece text rest) (before : Bytes) :
    NoRunAcross (before ++ text) rest := by
  intro b c hb hc
  cases hpiece with
  | @structural b' _ hb' =>
    obtain rfl : b' = b := by simpa using hb
    exact .inl (by simp [Byte.isDelimiter, hb'])
  | @string body _ _ =>
    have hlast : before ++ quoted body = (before ++ Byte.quote :: body) ++ [Byte.quote] := by
      simp [quoted]
    rw [hlast, List.getLast?_concat] at hb
    cases hb
    exact .inl rfl
  | scalar _ _ hrest => exact .inr (hrest c hc)

/-- The tokens of a division reach as far as their kinds allow. -/
theorem Splits.extent (h : Splits offset bs ts) (hlength : before.length = offset)
    (hborder : NoRunAcross before bs) : ∀ t ∈ ts, t.Extent (before ++ bs) := by
  induction h generalizing before with
  | blank _ => exact fun t ht => absurd ht List.not_mem_nil
  | @token offset gap text rest ts hgap hpiece _ ih =>
    have hfront : before ++ (gap ++ (text ++ rest)) = (before ++ gap) ++ (text ++ rest) := by simp
    have hlength' : (before ++ gap).length = offset + gap.length := by
      rw [List.length_append, hlength]
    have hborder' := hborder.append_blank hgap
    refine List.forall_mem_cons.mpr ⟨?_, ?_⟩
    · cases hpiece with
      | structural hb => exact .structural hb rfl
      | string hbody => exact .string rfl hbody
      | @scalar b bs _ hb hbs hrest =>
        refine .scalar (List.cons_ne_nil b bs) (List.forall_mem_cons.mpr ⟨hb, hbs⟩)
          (fun c hc => ?_) hrest
        -- The token begins with no delimiter, so a byte in front of it is one.
        rw [hfront, List.take_left' hlength'] at hc
        exact (hborder' c b hc rfl).resolve_right (by rw [hb]; exact Bool.false_ne_true)
    · have hsplit : before ++ (gap ++ (text ++ rest)) = (before ++ gap ++ text) ++ rest := by simp
      rw [hsplit]
      refine ih ?_ (noRunAcross_piece hpiece _)
      rw [List.length_append, hlength']

/-- What belongs to no token of a division is whitespace. -/
theorem Splits.isWhitespace_of_gap (h : Splits offset bs ts) {i : Nat} {b : UInt8}
    (hb : bs[i]? = some b) (hnone : ∀ t ∈ ts, ¬ t.Contains (offset + i)) :
    Byte.isWhitespace b = true := by
  induction h generalizing i with
  | blank hgap => exact hgap b (List.mem_of_getElem? hb)
  | @token offset gap text rest ts hgap _ _ ih =>
    obtain ⟨hfirst, hothers⟩ := List.forall_mem_cons.mp hnone
    by_cases hingap : i < gap.length
    · rw [List.getElem?_append_left hingap] at hb
      exact hgap b (List.mem_of_getElem? hb)
    obtain ⟨j, rfl⟩ := Nat.exists_eq_add_of_le (Nat.not_lt.mp hingap)
    rw [List.getElem?_append_right (Nat.le_add_right _ j), Nat.add_sub_cancel_left] at hb
    by_cases hintext : j < text.length
    · exact absurd ⟨by dsimp only; omega, by dsimp only; omega⟩ hfirst
    obtain ⟨k, rfl⟩ := Nat.exists_eq_add_of_le (Nat.not_lt.mp hintext)
    rw [List.getElem?_append_right (Nat.le_add_right _ k), Nat.add_sub_cancel_left] at hb
    refine ih hb fun t ht => ?_
    have hoffset : offset + gap.length + text.length + k =
        offset + (gap.length + (text.length + k)) := by omega
    rw [hoffset]
    exact hothers t ht

/-- The tokens of a division share the input. -/
theorem Splits.partition (h : Splits 0 input ts) : Partition input ts := by
  have hnone : NoRunAcross [] input := fun b c hb _ => by cases hb
  have hextent : ∀ t ∈ ts, t.Extent input := h.extent rfl hnone
  refine ⟨h.drop_offset, hextent, h.pairwise_offset, ?_, fun i b hb => ⟨fun hnone => ?_, ?_⟩⟩
  · refine h.pairwise_end.imp fun {t u} hend i hboth => ?_
    have := hboth.1.2
    have := hboth.2.1
    omega
  · rw [← Nat.zero_add i] at hnone
    refine ⟨h.isWhitespace_of_gap hb hnone, fun t ht _ => ?_⟩
    rw [← Nat.zero_add i]
    exact hnone t ht
  · rintro ⟨hblank, hstrings⟩ t ht hcontains
    obtain ⟨k, rfl⟩ := Nat.exists_eq_add_of_le hcontains.1
    have hk : k < t.text.length := Nat.lt_of_add_lt_add_left hcontains.2
    rw [(h.getElem?_token ht hk).2] at hb
    -- Whitespace inside of a token is inside of a string.
    have hquote := (hextent t ht).head_of_whitespace (List.mem_of_getElem? hb) hblank
    exact hstrings t ht hquote hcontains

/-! ## §3 What shares the input is a division -/

/-- Tokens in their places from an offset on are a division, if only whitespace is left out. -/
theorem splits_of_placed {start : Nat} (hpieces : ∀ t ∈ ts, Piece t.text t.rest)
    (hplaced : ∀ t ∈ ts, input.drop t.offset = t.text ++ t.rest)
    (hstart : ∀ t ∈ ts, start ≤ t.offset)
    (hends : ts.Pairwise fun t u => t.offset + t.text.length ≤ u.offset)
    (hgaps : ∀ i b, start ≤ i → input[i]? = some b → (∀ t ∈ ts, ¬ t.Contains i) →
      Byte.isWhitespace b = true) : Splits start (input.drop start) ts := by
  induction ts generalizing start with
  | nil =>
    refine .blank fun b hb => ?_
    obtain ⟨i, hi⟩ := List.mem_iff_getElem?.mp hb
    rw [List.getElem?_drop] at hi
    exact hgaps _ b (Nat.le_add_right start i) hi fun t ht => absurd ht List.not_mem_nil
  | cons t ts ih =>
    obtain ⟨hpiece, hpieces⟩ := List.forall_mem_cons.mp hpieces
    obtain ⟨htext, hplaced⟩ := List.forall_mem_cons.mp hplaced
    obtain ⟨hfirst, hlast⟩ := List.pairwise_cons.mp hends
    obtain ⟨gap, hgap⟩ := Nat.exists_eq_add_of_le (hstart t List.mem_cons_self)
    have hfront : input.drop start = (input.drop start).take gap ++ (t.text ++ t.rest) := by
      rw [← htext, hgap, ← List.drop_drop, List.take_append_drop]
    have hlength : ((input.drop start).take gap).length = gap := by
      -- The token is not empty, so it begins inside of the input.
      have hinside : input.drop (start + gap) ≠ [] := by
        rw [← hgap, htext]
        exact List.append_ne_nil_of_left_ne_nil hpiece.ne_nil _
      have hbound : start + gap < input.length := by simpa using hinside
      rw [List.length_take, List.length_drop]
      omega
    have hblank : Blank ((input.drop start).take gap) := by
      intro b hb
      obtain ⟨i, hi⟩ := List.mem_iff_getElem?.mp hb
      have hlt : i < gap := hlength ▸ (List.getElem?_eq_some_iff.mp hi).1
      rw [List.getElem?_take_of_lt hlt, List.getElem?_drop] at hi
      refine hgaps _ b (Nat.le_add_right start i) hi fun u hu hcontains => ?_
      have hbefore : t.offset ≤ u.offset := by
        rcases List.mem_cons.mp hu with rfl | hu
        · exact Nat.le_refl _
        · have := hfirst u hu
          omega
      have := hcontains.1
      omega
    have hrest : input.drop (t.offset + t.text.length) = t.rest := by
      rw [← List.drop_drop, htext, List.drop_left]
    have hsplits : Splits (t.offset + t.text.length) t.rest ts := by
      rw [← hrest]
      refine ih hpieces hplaced hfirst hlast fun i b hi hb hnone => ?_
      refine hgaps i b (by omega) hb (List.forall_mem_cons.mpr ⟨fun hcontains => ?_, hnone⟩)
      have := hcontains.2
      omega
    have hoffset : start + ((input.drop start).take gap).length = t.offset := by
      rw [hlength, hgap]
    have htoken := @Splits.token start _ t.text t.rest ts hblank hpiece (by rwa [hoffset])
    rwa [← hfront, hoffset] at htoken

/-- Tokens that share the input are its division. -/
theorem Partition.splits (h : Partition input ts) : Splits 0 input ts := by
  have hends : ts.Pairwise fun t u => t.offset + t.text.length ≤ u.offset := by
    refine (h.increasing.and h.disjoint).imp_of_mem fun {t u} _ hu hboth => ?_
    obtain ⟨hlt, hdisjoint⟩ := hboth
    have hpos := List.length_pos_iff.mpr (h.extent u hu).ne_nil
    -- Else the first byte of the later one belonged to both.
    by_contra hover
    exact hdisjoint u.offset
      ⟨⟨Nat.le_of_lt hlt, Nat.not_le.mp hover⟩, Nat.le_refl _, Nat.lt_add_of_pos_right hpos⟩
  have hpieces : ∀ t ∈ ts, Piece t.text t.rest := fun t ht => (h.extent t ht).piece
  have hfirst : ∀ t ∈ ts, 0 ≤ t.offset := fun t _ => Nat.zero_le _
  exact splits_of_placed hpieces h.placed hfirst hends fun i b _ hb hnone =>
    ((h.gaps i b hb).mp hnone).1

theorem partition_iff_splits : Partition input ts ↔ Splits 0 input ts :=
  ⟨Partition.splits, Splits.partition⟩

/-! ## §4 The pass -/

/-- The pass ends on every input. It finds the tokens that share the input, if there are any; it is
at fault at the end, if there is only whitespace, and otherwise at the quote that opens a string
without an end, where tokens share all that is before it. -/
theorem Token.scan_partition (input : Bytes) :
    (∀ ts, scan input = .ok ts ↔ Partition input ts ∧ ts ≠ []) ∧
      ∀ fault, scan input = .error fault ↔
        Blank input ∧ fault = ⟨.unexpectedEnd, input.length⟩ ∨
          ∃ before tail ts, input = before ++ Byte.quote :: tail ∧ Partition before ts ∧
            Unclosed tail ∧ fault = ⟨.unterminatedString, before.length⟩ := by
  constructor
  · intro ts
    rw [scan_eq_ok_iff, partition_iff_splits]
  · intro fault
    have hblank : Splits 0 input [] ↔ Blank input := ⟨blank_of_splits_nil, .blank⟩
    simp only [scan_eq_error_iff, partition_iff_splits, hblank]

end JsonTree
