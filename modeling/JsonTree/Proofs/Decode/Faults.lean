import JsonTree.Proofs.Decode.Document
import JsonTree.Proofs.Text.Faults
import JsonTree.Proofs.Token.Viable

/-!
# Which fault is reported

The outline leaves four things unchecked: the escapes of strings, numbers, scalars that are no
words, and the depth. Each is a matter of one token and of the brackets that are open before it. The
walk looks at every token once, in the order of the input, and stops at the first one that is bad;
so it fails exactly if there is a bad token, and then with the fault of the first one.

## Main definitions

- `Token.Bad`: a token that is at fault, with a number of brackets open before it.
- `Clean`, `FirstBad`: token sequences without a bad token, and with a first one.
- `Checked`: a result that tells which of the two holds.

## Main statements

- `Token.readAtom_eq_error_iff`: an atom is refused exactly if it is bad.
- `Node.checked`, `Decode.checked_readInput`: reading a tree, and a text, finds the first bad token.
- `decode_eq_error_iff_firstBad`: decoding reports the first bad token of the text.
-/

namespace JsonTree

open Grammar
open Outline (Bracket)

/-! ## §1 Bad tokens -/

/-- A token that is at fault where `level` brackets are open before it, and the fault. -/
inductive Token.Bad (limit level : Nat) (t : Token) : Fault → Prop where
  /-- A string or key with a bad escape, at its first one. -/
  | string {body : Bytes} {cause : Cause} {k : Nat} :
      t.text = quoted body → FirstBadEscape body cause k →
      Token.Bad limit level t ⟨cause, t.offset + 1 + k⟩
  /-- A scalar that begins like a number, but is none that can be represented. -/
  | number :
      t.head = Byte.minus ∨ Byte.isDigit t.head = true →
      (¬ ∃ l n, Numeral t.text l ∧ Denotes l n) →
      Token.Bad limit level t ⟨.invalidNumber, t.offset⟩
  /-- Another scalar that is not one of the words. -/
  | scalar :
      Byte.isDelimiter t.head = false → t.head ≠ Byte.minus → Byte.isDigit t.head = false →
      t.text ∉ Token.words → Token.Bad limit level t ⟨.unexpectedCharacter, t.offset⟩
  /-- A bracket that opens one container too many inside another. -/
  | bracket :
      t.head = Byte.openArray ∨ t.head = Byte.openObject → level = limit →
      Token.Bad limit level t ⟨.depthExceeded, t.offset⟩

namespace Token

variable {limit level : Nat} {t : Token} {fault : Fault} {form : Representation} {root : Bool}

/-- A quoted text begins with a quote. -/
theorem head_of_quoted {body : Bytes} (h : t.text = quoted body) : t.head = Byte.quote := by
  rw [head, h]
  rfl

/-- A string token is refused exactly if it is bad. -/
theorem string_eq_error_iff (hpiece : Piece t.text t.rest) (hquote : t.head = Byte.quote) :
    t.string = .error fault ↔ t.Bad limit level fault := by
  obtain ⟨body, htext, hbody⟩ := text_of_quote hpiece hquote
  rw [string_of_quoted htext, Text.read_eq_error_iff hbody]
  constructor
  · rintro ⟨k, hbad, hoffset⟩
    obtain ⟨cause, offset⟩ := fault
    obtain rfl : offset = t.offset + 1 + k := hoffset
    exact .string htext hbad
  · intro h
    -- A quote begins nothing but a string.
    cases h with
    | @string body' _ k htext' hbad =>
      obtain rfl : body' = body := by simpa [quoted] using htext'.symm.trans htext
      exact ⟨k, hbad, rfl⟩
    | number hhead _ =>
      rw [hquote] at hhead
      exact absurd hhead (by decide)
    | scalar hhead _ _ _ =>
      rw [hquote] at hhead
      cases hhead
    | bracket hhead _ =>
      rw [hquote] at hhead
      exact absurd hhead (by decide)

/-- What is read as a number is either read or at fault at its first byte. -/
theorem number_ok_or_error (t : Token) (root negative : Bool) :
    (∃ n, t.number root negative = .ok n) ∨
      t.number root negative = .error ⟨.invalidNumber, t.offset⟩ := by
  unfold number
  split
  · split
    · exact .inl ⟨_, rfl⟩
    · exact .inr rfl
  · exact .inr rfl

/-- A scalar that is read as a number is refused exactly if it is not exactly one number, however
the reader finds the end of it. -/
theorem number_eq_error_iff {negative : Bool} (hpiece : Piece t.text t.rest)
    (hstructural : Byte.isStructural t.head = false) (hquote : t.head ≠ Byte.quote)
    (hminus : negative = true → t.head = Byte.minus) (hends : endsNumber root t.rest = true)
    (hatom : t.readAtom form root = Value.ofNumber <$> t.number root negative) :
    t.number root negative = .error fault ↔
      fault = ⟨.invalidNumber, t.offset⟩ ∧ ¬ ∃ l n, Numeral t.text l ∧ Denotes l n := by
  obtain ⟨hscalar, hrest⟩ := scalar_of_piece hpiece hstructural hquote
  rcases t.number_ok_or_error root negative with ⟨n, hn⟩ | herror
  · obtain ⟨l, hl⟩ := numeral_of_number hscalar hrest
      (fun h => (head?_tail hpiece).trans (congrArg some (hminus h))) hn
    rw [hn]
    constructor
    · intro h
      cases h
    · exact fun h => absurd ⟨l, n, hl⟩ h.2
  · rw [herror, Except.error.injEq, eq_comm]
    refine (and_iff_left ?_).symm
    rintro ⟨l, n, hl, hdenotes⟩
    -- A numeral would have been read, because something ends it.
    have hread : t.readAtom form root = .ok (.ofNumber n) :=
      (holdsAtom_number hl hdenotes hends).read
    rw [hatom, herror] at hread
    cases hread

/-- A scalar that begins like a number is bad exactly if it is none. -/
theorem bad_number_iff (hhead : t.head = Byte.minus ∨ Byte.isDigit t.head = true) :
    t.Bad limit level fault ↔
      fault = ⟨.invalidNumber, t.offset⟩ ∧ ¬ ∃ l n, Numeral t.text l ∧ Denotes l n := by
  constructor
  · intro h
    cases h with
    | string htext _ =>
      rw [head_of_quoted htext] at hhead
      exact absurd hhead (by decide)
    | number _ hnone => exact ⟨rfl, hnone⟩
    | scalar _ hminus hdigit _ =>
      rcases hhead with h | h
      · exact absurd h hminus
      · cases hdigit.symm.trans h
    | bracket hbracket _ =>
      rcases hbracket with h | h <;> rw [h] at hhead <;> exact absurd hhead (by decide)
  · rintro ⟨rfl, hnone⟩
    exact .number hhead hnone

/-- A token that begins like a word is one of the words. -/
theorem beginsWord_iff_mem (hpiece : Piece t.text t.rest)
    (hword : t.beginsWord = true → t.isWord = true) :
    t.beginsWord = true ↔ t.text ∈ words := by
  constructor
  · exact fun hbegins => (isWord_iff hpiece hbegins).mp (hword hbegins)
  · intro hmem
    have hall : ∀ w ∈ words, (bare w).beginsWord = true := by decide
    exact hall t.text hmem

/-- Any other scalar is refused exactly if it does not begin like a word. -/
theorem readAtom_other (hminus : t.head ≠ Byte.minus) (hdigit : Byte.isDigit t.head = false)
    (hquote : t.head ≠ Byte.quote) :
    t.readAtom form root = .error fault ↔
      ¬ t.beginsWord = true ∧ fault = ⟨.unexpectedCharacter, t.offset⟩ := by
  have hminus' : ¬ (t.head == Byte.minus) = true := by simpa using hminus
  have hdigit' : ¬ Byte.isDigit t.head = true := by simpa using hdigit
  have hquote' : ¬ (t.head == Byte.quote) = true := by simpa using hquote
  rw [readAtom, if_neg hminus', if_neg hdigit', if_neg hquote']
  by_cases hnull : t.head = 0x6E
  · simp [hnull, beginsWord]
  by_cases htrue : t.head = 0x74
  · simp [htrue, beginsWord]
  by_cases hfalse : t.head = 0x66
  · simp [hfalse, beginsWord]
  · simpa [hnull, htrue, hfalse, beginsWord] using eq_comm

theorem bad_scalar_iff (hscalar : Byte.isDelimiter t.head = false) (hminus : t.head ≠ Byte.minus)
    (hdigit : Byte.isDigit t.head = false) :
    t.Bad limit level fault ↔ t.text ∉ words ∧ fault = ⟨.unexpectedCharacter, t.offset⟩ := by
  constructor
  · intro h
    cases h with
    | string htext _ =>
      rw [head_of_quoted htext] at hscalar
      cases hscalar
    | number hhead _ =>
      rcases hhead with h | h
      · exact absurd h hminus
      · cases hdigit.symm.trans h
    | scalar _ _ _ hword => exact ⟨hword, rfl⟩
    | bracket hbracket _ =>
      rcases hbracket with h | h <;> rw [h] at hscalar <;> cases hscalar
  · rintro ⟨hword, rfl⟩
    exact .scalar hscalar hminus hdigit hword

/-- An atom that is properly ended is refused exactly if it is bad. -/
theorem readAtom_eq_error_iff (hpiece : Piece t.text t.rest) (hwell : (Node.atom t).WellFormed)
    (hends : endsNumber root t.rest = true) :
    t.readAtom form root = .error fault ↔ t.Bad limit level fault := by
  by_cases hquote : t.head = Byte.quote
  · have hatom : t.readAtom form root =
        (fun text => Value.string (form.keep text)) <$> t.string := by
      rw [readAtom, hquote]
      rfl
    rw [hatom, map_eq_error_iff]
    exact string_eq_error_iff hpiece hquote
  by_cases hminus : t.head = Byte.minus
  · have hatom : t.readAtom form root = Value.ofNumber <$> t.number root true := by
      rw [readAtom, hminus]
      rfl
    rw [bad_number_iff (.inl hminus), hatom, map_eq_error_iff]
    exact number_eq_error_iff hpiece hwell.1 hquote (fun _ => hminus) hends hatom
  have hminus' : ¬ (t.head == Byte.minus) = true := by simpa using hminus
  by_cases hdigit : Byte.isDigit t.head = true
  · have hatom : t.readAtom form root = Value.ofNumber <$> t.number root false := by
      rw [readAtom, if_neg hminus', if_pos hdigit]
    rw [bad_number_iff (.inr hdigit), hatom, map_eq_error_iff]
    exact number_eq_error_iff hpiece hwell.1 hquote (fun h => Bool.noConfusion h) hends hatom
  · have hdigit' : Byte.isDigit t.head = false := by simpa using hdigit
    obtain ⟨hscalar, -⟩ := scalar_of_piece hpiece hwell.1 hquote
    have hmem : t.head ∈ t.text := by
      cases htext : t.text with
      | nil => exact absurd htext hpiece.ne_nil
      | cons b bs => rw [head, htext]; exact List.mem_cons_self
    rw [readAtom_other hminus hdigit' hquote, beginsWord_iff_mem hpiece hwell.2,
      bad_scalar_iff (hscalar _ hmem) hminus hdigit']

/-- A bracket is bad exactly if the limit is reached before it. -/
theorem bad_bracket_iff (hhead : t.head = Byte.openArray ∨ t.head = Byte.openObject) :
    t.Bad limit level fault ↔ level = limit ∧ fault = ⟨.depthExceeded, t.offset⟩ := by
  have hquote : t.head ≠ Byte.quote := by rcases hhead with h | h <;> rw [h] <;> decide
  have hminus : t.head ≠ Byte.minus := by rcases hhead with h | h <;> rw [h] <;> decide
  have hdigit : Byte.isDigit t.head = false := by rcases hhead with h | h <;> rw [h] <;> rfl
  have hdelimiter : Byte.isDelimiter t.head = true := by rcases hhead with h | h <;> rw [h] <;> rfl
  constructor
  · intro h
    cases h with
    | string htext _ => exact absurd (head_of_quoted htext) hquote
    | number h _ =>
      rcases h with h | h
      · exact absurd h hminus
      · cases hdigit.symm.trans h
    | scalar h _ _ _ => cases h.symm.trans hdelimiter
    | bracket _ hlevel => exact ⟨hlevel, rfl⟩
  · rintro ⟨hlevel, rfl⟩
    exact .bracket hhead hlevel

/-- A comma, a colon or a closing bracket is never bad. -/
theorem not_bad_of_mark
    (hhead : t.head ∈ [Byte.comma, Byte.colon, Byte.closeArray, Byte.closeObject])
    (fault : Fault) : ¬ t.Bad limit level fault := by
  have hall : ∀ b ∈ [Byte.comma, Byte.colon, Byte.closeArray, Byte.closeObject],
      b ≠ Byte.quote ∧ b ≠ Byte.minus ∧ Byte.isDigit b = false ∧ Byte.isDelimiter b = true ∧
        b ≠ Byte.openArray ∧ b ≠ Byte.openObject := List.all_iff_forall_prop.mp (by decide)
  obtain ⟨hquote, hminus, hdigit, hdelimiter, harray, hobject⟩ := hall _ hhead
  intro h
  cases h with
  | string htext _ => exact hquote (head_of_quoted htext)
  | number h _ =>
    rcases h with h | h
    · exact hminus h
    · cases hdigit.symm.trans h
  | scalar h _ _ _ => cases h.symm.trans hdelimiter
  | bracket h _ => exact h.elim harray hobject

end Token

/-! ## §2 The first bad token -/

/-- The open brackets behind some tokens. -/
def opened (stack : List Bracket) (ts : List Token) : List Bracket :=
  (ts.map (·.text)).foldl bracketStep stack

/-- No token is bad. -/
def Clean (limit : Nat) (stack : List Bracket) (ts : List Token) : Prop :=
  ∀ before t after, ts = before ++ t :: after →
    ∀ fault, ¬ t.Bad limit (opened stack before).length fault

/-- The first bad token has this fault. -/
def FirstBad (limit : Nat) (stack : List Bracket) (ts : List Token) (fault : Fault) : Prop :=
  ∃ before t after, ts = before ++ t :: after ∧ Clean limit stack before ∧
    t.Bad limit (opened stack before).length fault

section

variable {limit : Nat} {stack : List Bracket} {t : Token} {ts ts' : List Token} {fault : Fault}

theorem opened_append : opened stack (ts ++ ts') = opened (opened stack ts) ts' := by
  rw [opened, List.map_append, List.foldl_append, opened, opened]

theorem clean_nil : Clean limit stack [] := by
  rintro before t after h
  simp at h

theorem clean_singleton_iff :
    Clean limit stack [t] ↔ ∀ fault, ¬ t.Bad limit stack.length fault := by
  constructor
  · exact fun h => h [] t [] rfl
  · intro h before t' after heq
    obtain ⟨rfl, htail⟩ | ⟨-, hnil⟩ := List.singleton_eq_append_iff.mp heq
    · obtain ⟨rfl, -⟩ := List.cons.inj htail
      exact h
    · cases hnil

/-- What is marked in two lists one after the other lies in the second one or in the first one. -/
theorem append_eq_append_cons {α : Type} {as bs before after : List α} {a : α}
    (h : as ++ bs = before ++ a :: after) :
    (∃ between, before = as ++ between ∧ bs = between ++ a :: after) ∨
      ∃ between, as = before ++ a :: between ∧ after = between ++ bs := by
  rcases List.append_eq_append_iff.mp h with ⟨between, hbefore, hbs⟩ | ⟨between, has, htail⟩
  · exact .inl ⟨between, hbefore, hbs⟩
  · cases between with
    | nil => exact .inl ⟨[], by simpa using has.symm, htail.symm⟩
    | cons b between =>
      obtain ⟨rfl, hafter⟩ := List.cons.inj htail
      exact .inr ⟨between, has, hafter⟩

theorem clean_append_iff :
    Clean limit stack (ts ++ ts') ↔ Clean limit stack ts ∧ Clean limit (opened stack ts) ts' := by
  constructor
  · intro h
    constructor
    · rintro before t after rfl
      exact h before t (after ++ ts') (by simp)
    · rintro before t after rfl
      rw [← opened_append]
      exact h (ts ++ before) t after (by simp)
  · rintro ⟨h, h'⟩ before t after heq
    rcases append_eq_append_cons heq with ⟨between, rfl, hts'⟩ | ⟨between, hts, -⟩
    · rw [opened_append]
      exact h' between t after hts'
    · exact h before t between hts

theorem firstBad_append_iff :
    FirstBad limit stack (ts ++ ts') fault ↔
      FirstBad limit stack ts fault ∨
        Clean limit stack ts ∧ FirstBad limit (opened stack ts) ts' fault := by
  constructor
  · rintro ⟨before, t, after, heq, hclean, hbad⟩
    rcases append_eq_append_cons heq with ⟨between, rfl, hts'⟩ | ⟨between, hts, -⟩
    · rw [clean_append_iff] at hclean
      rw [opened_append] at hbad
      exact .inr ⟨hclean.1, between, t, after, hts', hclean.2, hbad⟩
    · exact .inl ⟨before, t, between, hts, hclean, hbad⟩
  · rintro (⟨before, t, after, rfl, hclean, hbad⟩ | ⟨hclean, before, t, after, rfl, hclean', hbad⟩)
    · exact ⟨before, t, after ++ ts', by simp, hclean, hbad⟩
    · refine ⟨ts ++ before, t, after, by simp, clean_append_iff.mpr ⟨hclean, hclean'⟩, ?_⟩
      rwa [opened_append]

theorem firstBad_singleton_iff :
    FirstBad limit stack [t] fault ↔ t.Bad limit stack.length fault := by
  constructor
  · rintro ⟨before, t', after, heq, -, hbad⟩
    obtain ⟨rfl, htail⟩ | ⟨-, hnil⟩ := List.singleton_eq_append_iff.mp heq
    · obtain ⟨rfl, -⟩ := List.cons.inj htail
      exact hbad
    · cases hnil
  · exact fun h => ⟨[], t, [], rfl, clean_nil, h⟩

end

/-! ## §3 Checked results -/

/-- A result over some tokens: it is a fault exactly if that is the fault of the first bad token,
and otherwise the tokens leave the given brackets open. -/
structure Checked {α : Type} (limit : Nat) (stack : List Bracket) (ts : List Token)
    (stack' : List Bracket) (r : Except Fault α) : Prop where
  error_iff : ∀ fault, r = .error fault ↔ FirstBad limit stack ts fault
  ok_iff : (∃ a, r = .ok a) ↔ Clean limit stack ts
  opened_eq : ∀ a, r = .ok a → opened stack ts = stack'

namespace Checked

variable {α β : Type} {limit : Nat} {stack stack' stack'' : List Bracket} {t : Token}
  {ts ts' : List Token} {r : Except Fault α}

/-- A step that looks at a single token. -/
theorem token (h : ∀ fault, r = .error fault ↔ t.Bad limit stack.length fault) :
    Checked limit stack [t] (bracketStep stack t.text) r := by
  refine ⟨fun fault => ?_, ?_, fun _ _ => rfl⟩
  · rw [h, firstBad_singleton_iff]
  · rw [clean_singleton_iff]
    cases r with
    | error fault =>
      have hbad := (h fault).mp rfl
      simpa using ⟨fault, hbad⟩
    | ok a => simpa using fun fault => (not_congr (h fault)).mp (by simp)

/-- Steps one after the other. -/
theorem bind {f : α → Except Fault β} (h : Checked limit stack ts stack' r)
    (hf : ∀ a, r = .ok a → Checked limit stack' ts' stack'' (f a)) :
    Checked limit stack (ts ++ ts') stack'' (r >>= f) := by
  cases r with
  | error fault =>
    have hbad : ¬ Clean limit stack ts := by
      rw [← h.ok_iff]
      simp
    refine ⟨fun fault' => ?_, ?_, fun a ha => by cases ha⟩
    · rw [firstBad_append_iff, ← h.error_iff, or_iff_left fun hclean => hbad hclean.1,
        Except.error.injEq]
      exact Except.error.injEq fault fault' ▸ Iff.rfl
    · rw [clean_append_iff, iff_false_right fun hclean => hbad hclean.1]
      rintro ⟨a, ha⟩
      cases ha
  | ok a =>
    have hclean : Clean limit stack ts := h.ok_iff.mp ⟨a, rfl⟩
    have hstack := h.opened_eq a rfl
    have hfirst : ∀ fault, ¬ FirstBad limit stack ts fault := by
      intro fault hfault
      cases (h.error_iff fault).mpr hfault
    have ha := hf a rfl
    refine ⟨fun fault => ?_, ?_, fun b hb => ?_⟩
    · rw [firstBad_append_iff, hstack, ← ha.error_iff, or_iff_right (hfirst fault),
        and_iff_right hclean]
      rfl
    · rw [clean_append_iff, hstack, ← ha.ok_iff, and_iff_right hclean]
      rfl
    · rw [opened_append, hstack, ha.opened_eq b hb]

/-- What is made of a result does not matter. -/
theorem map (h : Checked limit stack ts stack' r) (f : α → β) :
    Checked limit stack ts stack' (f <$> r) := by
  refine ⟨fun fault => ?_, ?_, fun b hb => ?_⟩
  · rw [map_eq_error_iff, h.error_iff]
  · rw [← h.ok_iff]
    simp [map_eq_ok_iff]
  · obtain ⟨a, ha, -⟩ := map_eq_ok_iff.mp hb
    exact h.opened_eq a ha

/-- A token that is not bad goes before. -/
theorem after (ht : ∀ fault, ¬ t.Bad limit stack.length fault)
    (h : Checked limit (bracketStep stack t.text) ts stack' r) :
    Checked limit stack (t :: ts) stack' r := by
  have hfirst : Checked limit stack [t] (bracketStep stack t.text) (.ok () : Except Fault Unit) :=
    token fun fault => by simpa using ht fault
  exact hfirst.bind fun _ _ => h

/-- A token that is not bad, by itself. -/
theorem single (ht : ∀ fault, ¬ t.Bad limit stack.length fault) (a : α) :
    Checked limit stack [t] (bracketStep stack t.text) (.ok a) :=
  token fun fault => by simpa using ht fault

/-- A bracket that the limit does not allow is at fault, whatever follows. -/
theorem exceeded (hhead : t.head = Byte.openArray ∨ t.head = Byte.openObject)
    (hlevel : stack.length = limit) :
    Checked limit stack (t :: ts) stack' (.error ⟨.depthExceeded, t.offset⟩ : Except Fault α) := by
  have hfirst : Checked limit stack [t] (bracketStep stack t.text)
      (.error ⟨.depthExceeded, t.offset⟩ : Except Fault α) := by
    refine token fun fault => ?_
    rw [Token.bad_bracket_iff hhead, and_iff_right hlevel, Except.error.injEq, eq_comm]
  exact @bind α α limit stack _ stack' [t] ts _ .ok hfirst fun a ha => by cases ha

end Checked

/-! ## §4 Trees -/

/-- A blank rest ends a number at the root. -/
theorem endsNumber_blank {rest : Bytes} (h : Blank rest) : Token.endsNumber true rest = true := by
  cases rest with
  | nil => rfl
  | cons b rest => simp [Token.endsNumber, h b List.mem_cons_self]

/-- A structural byte ends a number inside a container, also behind a gap. -/
theorem endsNumber_structural {offset : Nat} {rest : Bytes} {t : Token} {ts : List Token}
    (h : Splits offset rest (t :: ts)) (ht : Byte.isStructural t.head = true) :
    Token.endsNumber false rest = true := by
  obtain ⟨gap, next, rfl, hgap, hpiece, -⟩ := splits_inv h
  rw [text_of_structural hpiece ht]
  apply endsNumber_append hgap
  simp [Token.endsNumber, ht]

/-- A division goes on behind some of its tokens. -/
theorem Splits.of_append {offset : Nat} {bs : Bytes} {ts ts' : List Token}
    (h : Splits offset bs (ts ++ ts')) : ∃ next rest, Splits next rest ts' := by
  induction ts generalizing offset bs with
  | nil => exact ⟨offset, bs, h⟩
  | cons t ts ih =>
    obtain ⟨-, next, -, -, -, hrest⟩ := splits_inv h
    exact ih hrest

section

variable (form : Representation) {limit : Nat}

/-- A bracket that the limit allows goes before. -/
theorem Checked.inside {α : Type} {b : UInt8} {t : Token} {ts : List Token}
    {stack stack' : List Bracket} {r : Except Fault α} (hpiece : Piece t.text t.rest)
    (hhead : t.head = b) (hb : b = Byte.openArray ∨ b = Byte.openObject)
    (hlevel : stack.length ≠ limit) (h : Checked limit (bracketStep stack [b]) ts stack' r) :
    Checked limit stack (t :: ts) stack' r := by
  refine .after (fun fault hbad => ?_) ?_
  · exact hlevel ((Token.bad_bracket_iff (hhead ▸ hb)).mp hbad).1
  · have hstructural : Byte.isStructural b = true := by rcases hb with rfl | rfl <;> rfl
    rwa [text_of_head hpiece hstructural hhead]

/-- A comma or a colon goes before. -/
theorem Checked.mark {α : Type} {b : UInt8} {t : Token} {ts : List Token}
    {stack stack' : List Bracket} {r : Except Fault α} (hpiece : Piece t.text t.rest)
    (hhead : t.head = b) (hb : b ∈ [Byte.comma, Byte.colon])
    (h : Checked limit stack ts stack' r) : Checked limit stack (t :: ts) stack' r := by
  have hall : ∀ b ∈ [Byte.comma, Byte.colon], Byte.isStructural b = true ∧
      bracketStep stack [b] = stack ∧
      b ∈ [Byte.comma, Byte.colon, Byte.closeArray, Byte.closeObject] :=
    List.forall_mem_cons.mpr ⟨⟨rfl, rfl, by decide⟩,
      List.forall_mem_singleton.mpr ⟨rfl, rfl, by decide⟩⟩
  obtain ⟨hstructural, hstep, hmem⟩ := hall b hb
  refine .after (Token.not_bad_of_mark (hhead ▸ hmem)) ?_
  rwa [text_of_head hpiece hstructural hhead, hstep]

/-- A closing bracket is the last token. -/
theorem Checked.closing {α : Type} {bracket : Bracket} {stack : List Bracket} {b : UInt8}
    {t : Token}
    (hpiece : Piece t.text t.rest) (hhead : t.head = b)
    (hb : b ∈ [Byte.closeArray, Byte.closeObject]) (a : α) :
    Checked limit (bracket :: stack) [t] stack (.ok a) := by
  have hall : ∀ b ∈ [Byte.closeArray, Byte.closeObject], Byte.isStructural b = true ∧
      bracketStep (bracket :: stack) [b] = stack ∧
      b ∈ [Byte.comma, Byte.colon, Byte.closeArray, Byte.closeObject] :=
    List.forall_mem_cons.mpr ⟨⟨rfl, rfl, by decide⟩,
      List.forall_mem_singleton.mpr ⟨rfl, rfl, by decide⟩⟩
  obtain ⟨hstructural, hstep, hmem⟩ := hall b hb
  have hsingle : Checked limit (bracket :: stack) [t] (bracketStep (bracket :: stack) t.text)
      (.ok a) := .single (Token.not_bad_of_mark (hhead ▸ hmem)) a
  rwa [text_of_head hpiece hstructural hhead, hstep] at hsingle

/-- A key is looked at like any other string. -/
theorem Checked.key {stack : List Bracket} {key : Token} (hpiece : Piece key.text key.rest)
    (hkey : key.head = Byte.quote) : Checked limit stack [key] stack key.string := by
  have hstring : Checked limit stack [key] (bracketStep stack key.text) key.string :=
    .token fun fault => Token.string_eq_error_iff hpiece hkey
  rwa [bracketStep_of_not_structural (hkey ▸ rfl)] at hstring

mutual

/-- Reading a tree finds the first bad token of the tree. -/
theorem Node.checked (v : Node) (hv : v.WellFormed) {offset : Nat} {bs : Bytes} {ts : List Token}
    (hsplits : Splits offset bs (v.tokens ++ ts)) {stack : List Bracket} {levels : Nat}
    (hlevels : stack.length + levels = limit) {root : Bool}
    (hends : ∀ {next rest}, Splits next rest ts → Token.endsNumber root rest = true) :
    Checked limit stack v.tokens stack (v.read form levels root) := by
  have hpieces := hsplits.pieces
  -- The levels left run out exactly where as many brackets are open as the limit allows.
  cases v with
  | atom t =>
    obtain ⟨-, next, -, -, hpiece, hrest⟩ := splits_inv hsplits
    have hatom : Checked limit stack [t] (bracketStep stack t.text) (t.readAtom form root) :=
      .token fun fault => Token.readAtom_eq_error_iff hpiece hv (hends hrest)
    rw [bracketStep_of_not_structural hv.1] at hatom
    rw [Node.read_atom]
    exact hatom
  | emptyArray opening closing =>
    obtain ⟨hopening, hclosing⟩ := List.forall_mem_cons.mp hpieces
    cases levels with
    | zero => exact .exceeded (.inl hv.1) hlevels
    | succ levels =>
      exact .inside hopening hv.1 (.inl rfl) (by omega)
        (.closing (hclosing closing List.mem_cons_self) hv.2 (by simp) _)
  | emptyObject opening closing =>
    obtain ⟨hopening, hclosing⟩ := List.forall_mem_cons.mp hpieces
    cases levels with
    | zero => exact .exceeded (.inr hv.1) hlevels
    | succ levels =>
      exact .inside hopening hv.1 (.inr rfl) (by omega)
        (.closing (hclosing closing List.mem_cons_self) hv.2 (by simp) _)
  | array opening elements =>
    obtain ⟨-, next, -, -, hopening, hrest⟩ := splits_inv hsplits
    cases levels with
    | zero => exact .exceeded (.inl hv.1) hlevels
    | succ levels =>
      exact .inside hopening hv.1 (.inl rfl) (by omega)
        ((elements.checked hv.2 hrest (by rw [List.length_cons]; omega)).map _)
  | object opening members =>
    obtain ⟨-, next, -, -, hopening, hrest⟩ := splits_inv hsplits
    cases levels with
    | zero => exact .exceeded (.inr hv.1) hlevels
    | succ levels =>
      exact .inside hopening hv.1 (.inr rfl) (by omega)
        ((members.checked hv.2 hrest (by rw [List.length_cons]; omega)).map _)

theorem Nodes.checked (elements : Nodes) (hv : elements.WellFormed) {offset : Nat} {bs : Bytes}
    {ts : List Token} (hsplits : Splits offset bs (elements.tokens ++ ts)) {stack : List Bracket}
    {levels : Nat} (hlevels : (Bracket.array :: stack).length + levels = limit) :
    Checked limit (.array :: stack) elements.tokens stack (elements.read form levels) := by
  cases elements with
  | last v closing =>
    rw [Nodes.tokens_last_append] at hsplits
    have hclosing := hsplits.pieces closing (by simp)
    -- A value inside a container is followed by a token that ends numbers.
    have hvalue := v.checked hv.1 hsplits hlevels fun h =>
      endsNumber_structural h (by rw [hv.2]; rfl)
    rw [Nodes.tokens_last, Nodes.read]
    exact hvalue.bind fun x _ => .closing hclosing hv.2 (by simp) [x]
  | more v comma elements =>
    obtain ⟨hv, hcomma, helements⟩ := hv
    rw [Nodes.tokens_more_append] at hsplits
    obtain ⟨next, rest, hsplits'⟩ := hsplits.of_append
    obtain ⟨-, next, -, -, hpiece, hrest⟩ := splits_inv hsplits'
    have hvalue := v.checked hv hsplits hlevels fun h =>
      endsNumber_structural h (by rw [hcomma]; rfl)
    have hothers := elements.checked helements hrest hlevels
    rw [Nodes.tokens_more, Nodes.read]
    exact hvalue.bind fun x _ => .mark hpiece hcomma (by simp) (hothers.map (x :: ·))

theorem Fields.checked (members : Fields) (hv : members.WellFormed) {offset : Nat} {bs : Bytes}
    {ts : List Token} (hsplits : Splits offset bs (members.tokens ++ ts)) {stack : List Bracket}
    {levels : Nat} (hlevels : (Bracket.object :: stack).length + levels = limit) :
    Checked limit (.object :: stack) members.tokens stack (members.read form levels) := by
  cases members with
  | last key colon v closing =>
    obtain ⟨hkey, hcolon, hv, hend⟩ := hv
    rw [Fields.tokens_last_append] at hsplits
    obtain ⟨-, _, -, -, hkeyPiece, hsplits⟩ := splits_inv hsplits
    obtain ⟨-, _, -, -, hcolonPiece, hsplits⟩ := splits_inv hsplits
    have hclosing := hsplits.pieces closing (by simp)
    have hvalue := v.checked hv hsplits hlevels fun h =>
      endsNumber_structural h (by rw [hend]; rfl)
    rw [Fields.tokens_last, Fields.read]
    refine (Checked.key hkeyPiece hkey).bind fun text _ => ?_
    exact .mark hcolonPiece hcolon (by simp)
      (hvalue.bind fun x _ => .closing hclosing hend (by simp) _)
  | more key colon v comma members =>
    obtain ⟨hkey, hcolon, hv, hcomma, hmembers⟩ := hv
    rw [Fields.tokens_more_append] at hsplits
    obtain ⟨-, _, -, -, hkeyPiece, hsplits⟩ := splits_inv hsplits
    obtain ⟨-, _, -, -, hcolonPiece, hsplits⟩ := splits_inv hsplits
    obtain ⟨_, _, hsplits'⟩ := hsplits.of_append
    obtain ⟨-, _, -, -, hpiece, hrest⟩ := splits_inv hsplits'
    have hvalue := v.checked hv hsplits hlevels fun h =>
      endsNumber_structural h (by rw [hcomma]; rfl)
    have hothers := members.checked hmembers hrest hlevels
    rw [Fields.tokens_more, Fields.read]
    refine (Checked.key hkeyPiece hkey).bind fun text _ => ?_
    exact .mark hcolonPiece hcolon (by simp) (hvalue.bind fun x _ =>
      .mark hpiece hcomma (by simp) (hothers.map ((form.keep text, x) :: ·)))

end

end

/-! ## §5 Whole texts -/

/-- Reading a text finds the first bad token of its tree. -/
theorem Decode.checked_readInput (form : Representation) (requested : Nat) {input : Bytes}
    {v : Node} (hv : v.WellFormed) (hscan : Token.scan input = .ok v.tokens) :
    Checked (effectiveDepth requested) [] v.tokens [] (readInput form requested input) := by
  have hsplits : Splits 0 input (v.tokens ++ []) := by
    rw [List.append_nil]
    exact ((Token.scan_eq_ok_iff input _).mp hscan).1
  rw [readInput_of_scan form requested hv hscan]
  -- Nothing but whitespace follows the value.
  exact v.checked form hv hsplits (Nat.zero_add _) fun hrest =>
    endsNumber_blank (blank_of_splits_nil hrest)

/-- Of every text whose tokens form a value, decoding fails exactly if some token is bad, and the
error tells of the first one in the order of the input. -/
theorem decode_eq_error_iff_firstBad {input : Bytes} {c : Cursor}
    (h : Cursor.ofInput input = .ok c) :
    ∃ ts, Token.scan input = .ok ts ∧ ∀ form requested,
      ((∃ e, decode form requested input = .error e) ↔
        ∃ before t after fault, ts = before ++ t :: after ∧
          t.Bad (effectiveDepth requested) (opened [] before).length fault) ∧
      ∀ e, decode form requested input = .error e ↔
        ∃ fault, FirstBad (effectiveDepth requested) [] ts fault ∧ e = fault.locate input := by
  obtain ⟨v, hv, hscan, rfl⟩ := (Cursor.ofInput_eq_ok_iff input c).mp h
  refine ⟨v.tokens, hscan, fun form requested => ?_⟩
  have hchecked := Decode.checked_readInput form requested hv hscan
  have herror : ∀ e, decode form requested input = .error e ↔
      ∃ fault, FirstBad (effectiveDepth requested) [] v.tokens fault ∧ e = fault.locate input := by
    intro e
    simp only [← hchecked.error_iff, decode_eq_readInput, eq_comm]
    cases Decode.readInput form requested input <;> simp [Except.mapError]
  refine ⟨?_, herror⟩
  have hfails : (∃ e, decode form requested input = .error e) ↔
      ¬ ∃ x, Decode.readInput form requested input = .ok x := by
    rw [decode_eq_readInput]
    cases Decode.readInput form requested input <;> simp [Except.mapError]
  rw [hfails, hchecked.ok_iff]
  simp only [Clean, not_forall, not_not, exists_prop, exists_and_left]

/-- An object with two members of one key, both with a bad value. -/
def twiceBadInput : Bytes := Bytes.ofAscii "\x7b\"a\":\"\\q\",\"a\":01\x7d"

/-- The first of the two values is at fault, although the other member replaces it. -/
theorem decode_eq_error_iff_firstBad_twice :
    ∃ c e ts fault, Cursor.ofInput twiceBadInput = .ok c ∧
      decode .owned 1 twiceBadInput = .error e ∧ e.cause = .invalidEscape ∧
      Token.scan twiceBadInput = .ok ts ∧ FirstBad 1 [] ts fault ∧
      e = fault.locate twiceBadInput := by
  cases hcursor : Cursor.ofInput twiceBadInput with
  | error fault =>
    have hsome : (Cursor.ofInput twiceBadInput).toOption.isSome = true := by decide +kernel
    rw [hcursor] at hsome
    cases hsome
  | ok c =>
    have hcause : (match decode .owned 1 twiceBadInput with
        | .ok _ => none
        | .error e => some e.cause) = some .invalidEscape := by decide +kernel
    cases hdecode : decode .owned 1 twiceBadInput with
    | ok x =>
      rw [hdecode] at hcause
      cases hcause
    | error e =>
      rw [hdecode] at hcause
      obtain ⟨ts, hscan, h⟩ := decode_eq_error_iff_firstBad hcursor
      obtain ⟨fault, hfirst, hlocate⟩ := ((h .owned 1).2 e).mp hdecode
      exact ⟨c, e, ts, fault, rfl, rfl, Option.some.inj hcause, hscan, hfirst, hlocate⟩

end JsonTree
