import JsonTree.Proofs.Decode.Tokens

/-!
# The grammar of token sequences

A lexeme is what a token is without its place in the input. Values are sequences of lexemes by a
recursive grammar, which knows neither states nor a stack. The tokens that the outline accepts spell
the sentences of this grammar, and every sentence is spelled by the tokens of some input.

## Main definitions

- `Lexeme`, `Atom`: the bytes of a token, and those that are a value by themselves.
- `Sentence`, with its `Elements` and `Members`: the grammar.
- `Accepted`: what the tokens of an input spell that the outline accepts.
- `Outline.State.after`: the machine on lexemes.

## Main statements

- `Outline.passes_iff_after`: only the lexemes of the tokens matter.
- `Token.accepts_iff_sentence`: the outline accepts the sentences.
- `accepted_iff_sentence`: every sentence is accepted in some input.
-/

namespace JsonTree

open Grammar (quoted)
open Outline (Passes Role State)

/-! ## §1 Lexemes -/

/-- The bytes of a token, wherever it stands. -/
def Lexeme (l : Bytes) : Prop := Piece l []

/-- The first byte is a `t`, an `f` or an `n`. -/
def BeginsWord (l : Bytes) : Prop := ∃ b ∈ Bytes.ofAscii "tfn", l.head? = some b

/-- A lexeme that is a value by itself. One that begins like a word is a word. -/
structure Atom (l : Bytes) : Prop where
  lexeme : Lexeme l
  not_structural : ∀ b, l.head? = some b → Byte.isStructural b = false
  word : BeginsWord l → l ∈ Token.words

/-! ## §2 The grammar -/

mutual

/-- A sequence of lexemes that is one value. -/
inductive Sentence : List Bytes → Prop where
  | atom {l : Bytes} : Atom l → Sentence [l]
  | emptyArray : Sentence [[Byte.openArray], [Byte.closeArray]]
  | array {ls : List Bytes} :
      Sentence.Elements ls → Sentence ([Byte.openArray] :: (ls ++ [[Byte.closeArray]]))
  | emptyObject : Sentence [[Byte.openObject], [Byte.closeObject]]
  | object {ls : List Bytes} :
      Sentence.Members ls → Sentence ([Byte.openObject] :: (ls ++ [[Byte.closeObject]]))

/-- The elements of an array with commas between them, at least one. -/
inductive Sentence.Elements : List Bytes → Prop where
  | last {ls : List Bytes} : Sentence ls → Sentence.Elements ls
  | more {ls rest : List Bytes} :
      Sentence ls → Sentence.Elements rest → Sentence.Elements (ls ++ [Byte.comma] :: rest)

/-- The members of an object with commas between them, at least one. -/
inductive Sentence.Members : List Bytes → Prop where
  | last {key : Bytes} {ls : List Bytes} :
      Body key → Sentence ls → Sentence.Members (quoted key :: [Byte.colon] :: ls)
  | more {key : Bytes} {ls rest : List Bytes} :
      Body key → Sentence ls → Sentence.Members rest →
      Sentence.Members (quoted key :: [Byte.colon] :: (ls ++ [Byte.comma] :: rest))

end

/-! ## §3 Tokens without their place -/

/-- The token of a lexeme that stands alone. -/
def Token.bare (l : Bytes) : Token := ⟨0, l, []⟩

variable {t : Token} {ts : List Token} {l : Bytes} {ls : List Bytes}

theorem Piece.lexeme {rest : Bytes} (h : Piece l rest) : Lexeme l := by
  cases h with
  | structural hb => exact .structural hb
  | string hbody => exact .string hbody
  | scalar hb hbs hrest =>
    refine .scalar hb hbs fun b hb => ?_
    cases hb

/-- Whitespace after a lexeme does not extend it. -/
theorem Lexeme.piece {b : UInt8} {rest : Bytes} (h : Lexeme l) (hb : Byte.isWhitespace b = true) :
    Piece l (b :: rest) := by
  cases h with
  | structural hb => exact .structural hb
  | string hbody => exact .string hbody
  | scalar hc hcs _ =>
    refine .scalar hc hcs fun c hc => ?_
    cases hc
    simp [Byte.isDelimiter, hb]

namespace Token

theorem beginsWord_iff (t : Token) : t.beginsWord = true ↔ BeginsWord t.text := by
  have hletters : Bytes.ofAscii "tfn" = [0x74, 0x66, 0x6E] := rfl
  unfold BeginsWord beginsWord head
  rw [hletters]
  cases t.text with
  | nil => simp
  | cons b bs => simp [or_assoc]

theorem atom_iff (hpiece : Piece t.text t.rest) : Atom t.text ↔ (Node.atom t).WellFormed := by
  have hhead : (∀ b, t.text.head? = some b → Byte.isStructural b = false) ↔
      Byte.isStructural t.head = false := by
    unfold head
    cases htext : t.text with
    | nil => exact absurd htext hpiece.ne_nil
    | cons b bs => simp
  constructor
  · intro h
    refine ⟨hhead.mp h.not_structural, fun hbegins => ?_⟩
    exact (isWord_iff hpiece hbegins).mpr (h.word ((beginsWord_iff t).mp hbegins))
  · rintro ⟨hstructural, hword⟩
    refine ⟨hpiece.lexeme, hhead.mpr hstructural, fun hbegins => ?_⟩
    have hbegins := (beginsWord_iff t).mpr hbegins
    exact (isWord_iff hpiece hbegins).mp (hword hbegins)

end Token

/-! ## §4 The machine on lexemes -/

namespace Outline

namespace State

/-- The state after a lexeme, if it may stand there. -/
def step (s : State) (l : Bytes) : Option State := (s.advance (.bare l)).toOption.map (·.2)

/-- The state after lexemes, if each may stand where it does. -/
def after (s : State) : List Bytes → Option State
  | [] => some s
  | l :: ls => (s.step l).bind (·.after ls)

theorem after_append (s : State) (ls ls' : List Bytes) :
    s.after (ls ++ ls') = (s.after ls).bind (·.after ls') := by
  induction ls generalizing s with
  | nil => rfl
  | cons l ls ih =>
    rw [List.cons_append, after, after]
    cases s.step l with
    | none => rfl
    | some next => exact ih next

/-- The machine does not see where a token stands. -/
theorem advance_bare (s : State) (hpiece : Piece t.text t.rest) :
    s.advance (.bare t.text) = s.advance t := by
  -- All that is looked at besides the first byte is whether a scalar is a word.
  have hword : ((Token.bare t.text).beginsWord && !(Token.bare t.text).isWord) =
      (t.beginsWord && !t.isWord) := by
    have hsame : (Token.bare t.text).beginsWord = t.beginsWord := rfl
    cases hbegins : t.beginsWord with
    | false => rw [hsame, hbegins, Bool.false_and, Bool.false_and]
    | true =>
      have hiff := (Token.isWord_iff (t := .bare t.text) hpiece.lexeme (hsame.trans hbegins)).trans
        (Token.isWord_iff hpiece hbegins).symm
      rw [hsame, hbegins, Bool.eq_iff_iff.mpr hiff]
  have hvalue : ∀ stack, beginValue stack (.bare t.text) = beginValue stack t := by
    intro stack
    unfold beginValue
    rw [hword]
    rfl
  unfold advance
  cases s.expect with
  | value => exact hvalue s.stack
  | element =>
    simp only [hvalue]
    rfl
  | _ => rfl

theorem step_of_advance {s next : State} {role : Role} (hpiece : Piece t.text t.rest)
    (h : s.advance t = .ok (role, next)) : s.step t.text = some next := by
  rw [step, s.advance_bare hpiece, h]
  rfl

theorem step_of_error {s : State} {cause : Cause} (hpiece : Piece t.text t.rest)
    (h : s.advance t = .error cause) : s.step t.text = none := by
  rw [step, s.advance_bare hpiece, h]
  rfl

end State

/-- The machine gets to the end of the tokens if it gets over their lexemes to a complete value. -/
theorem passes_iff_after (size : Nat) (s : State) (hpieces : ∀ t ∈ ts, Piece t.text t.rest) :
    Passes size s ts ↔ ∃ last, s.after (ts.map (·.text)) = some last ∧ last.expect = .nothing := by
  induction ts generalizing s with
  | nil =>
    constructor
    · exact fun h => ⟨s, rfl, expect_of_passes_nil h⟩
    · rintro ⟨last, hlast, hexpect⟩
      cases hlast
      refine ⟨([], []), ?_⟩
      rw [itemsFrom, State.endFault?, hexpect]
  | cons t ts ih =>
    obtain ⟨hpiece, hpieces⟩ := List.forall_mem_cons.mp hpieces
    rw [List.map_cons, State.after]
    cases hadvance : s.advance t with
    | error cause =>
      rw [State.step_of_error hpiece hadvance]
      constructor
      · intro h
        obtain ⟨role, next, hok, -⟩ := passes_cons h
        cases hadvance.symm.trans hok
      · rintro ⟨last, hlast, -⟩
        cases hlast
    | ok move =>
      obtain ⟨role, next⟩ := move
      rw [State.step_of_advance hpiece hadvance, Option.bind_some, ← ih next hpieces]
      constructor
      · intro h
        obtain ⟨role', next', hok, hpasses⟩ := passes_cons h
        cases hadvance.symm.trans hok
        exact hpasses
      · rintro ⟨found, hfound⟩
        rw [Passes, itemsFrom_cons hadvance, hfound]
        exact ⟨_, rfl⟩

end Outline

/-! ## §5 Trees and sentences -/

/-- A token with a structural first byte, by its lexeme. -/
theorem text_of_head {b : UInt8} (hpiece : Piece t.text t.rest) (hb : Byte.isStructural b = true)
    (h : t.head = b) : t.text = [b] := by
  subst h
  exact text_of_structural hpiece hb

mutual

/-- The tokens of a tree spell a sentence. -/
theorem Node.sentence : (v : Node) → v.WellFormed → (∀ t ∈ v.tokens, Piece t.text t.rest) →
    Sentence (v.tokens.map (·.text))
  | .atom t, hwell, hpieces =>
    .atom ((Token.atom_iff (hpieces t List.mem_cons_self)).mpr hwell)
  | .emptyArray opening closing, hwell, hpieces => by
    have hopening := text_of_head (hpieces opening List.mem_cons_self) rfl hwell.1
    have hclosing := text_of_head
      (hpieces closing (List.mem_cons_of_mem _ List.mem_cons_self)) rfl hwell.2
    change Sentence [opening.text, closing.text]
    rw [hopening, hclosing]
    exact .emptyArray
  | .array opening elements, hwell, hpieces => by
    obtain ⟨hpiece, hpieces⟩ := List.forall_mem_cons.mp hpieces
    obtain ⟨ls, hls, hspelled⟩ := elements.spelled hwell.2 hpieces
    change Sentence (opening.text :: elements.tokens.map (·.text))
    rw [text_of_head hpiece rfl hwell.1, hspelled]
    exact .array hls
  | .emptyObject opening closing, hwell, hpieces => by
    have hopening := text_of_head (hpieces opening List.mem_cons_self) rfl hwell.1
    have hclosing := text_of_head
      (hpieces closing (List.mem_cons_of_mem _ List.mem_cons_self)) rfl hwell.2
    change Sentence [opening.text, closing.text]
    rw [hopening, hclosing]
    exact .emptyObject
  | .object opening members, hwell, hpieces => by
    obtain ⟨hpiece, hpieces⟩ := List.forall_mem_cons.mp hpieces
    obtain ⟨ls, hls, hspelled⟩ := members.spelled hwell.2 hpieces
    change Sentence (opening.text :: members.tokens.map (·.text))
    rw [text_of_head hpiece rfl hwell.1, hspelled]
    exact .object hls

/-- The tokens of elements spell elements and the closing bracket. -/
theorem Nodes.spelled : (elements : Nodes) → elements.WellFormed →
    (∀ t ∈ elements.tokens, Piece t.text t.rest) →
    ∃ ls, Sentence.Elements ls ∧ elements.tokens.map (·.text) = ls ++ [[Byte.closeArray]]
  | .last v closing, hwell, hpieces => by
    rw [Nodes.tokens_last] at hpieces ⊢
    obtain ⟨hvalue, hclosing⟩ := List.forall_mem_append.mp hpieces
    refine ⟨_, .last (v.sentence hwell.1 hvalue), ?_⟩
    rw [List.map_append, List.map_singleton,
      text_of_head (hclosing closing List.mem_cons_self) rfl hwell.2]
  | .more v comma elements, hwell, hpieces => by
    rw [Nodes.tokens_more] at hpieces ⊢
    obtain ⟨hvalue, hrest⟩ := List.forall_mem_append.mp hpieces
    obtain ⟨hcomma, hrest⟩ := List.forall_mem_cons.mp hrest
    obtain ⟨ls, hls, hspelled⟩ := elements.spelled hwell.2.2 hrest
    refine ⟨_, .more (v.sentence hwell.1 hvalue) hls, ?_⟩
    rw [List.map_append, List.map_cons, text_of_head hcomma rfl hwell.2.1, hspelled,
      List.append_assoc, List.cons_append]

/-- The tokens of members spell members and the closing brace. -/
theorem Fields.spelled : (members : Fields) → members.WellFormed →
    (∀ t ∈ members.tokens, Piece t.text t.rest) →
    ∃ ls, Sentence.Members ls ∧ members.tokens.map (·.text) = ls ++ [[Byte.closeObject]]
  | .last key colon v closing, hwell, hpieces => by
    rw [Fields.tokens_last] at hpieces ⊢
    obtain ⟨hkey, hrest⟩ := List.forall_mem_cons.mp hpieces
    obtain ⟨hcolon, hrest⟩ := List.forall_mem_cons.mp hrest
    obtain ⟨hvalue, hclosing⟩ := List.forall_mem_append.mp hrest
    obtain ⟨body, htext, hbody⟩ := text_of_quote hkey hwell.1
    refine ⟨_, .last hbody (v.sentence hwell.2.2.1 hvalue), ?_⟩
    rw [List.map_cons, List.map_cons, List.map_append, List.map_singleton, htext,
      text_of_head hcolon rfl hwell.2.1,
      text_of_head (hclosing closing List.mem_cons_self) rfl hwell.2.2.2]
    rfl
  | .more key colon v comma members, hwell, hpieces => by
    rw [Fields.tokens_more] at hpieces ⊢
    obtain ⟨hkey, hrest⟩ := List.forall_mem_cons.mp hpieces
    obtain ⟨hcolon, hrest⟩ := List.forall_mem_cons.mp hrest
    obtain ⟨hvalue, hrest⟩ := List.forall_mem_append.mp hrest
    obtain ⟨hcomma, hrest⟩ := List.forall_mem_cons.mp hrest
    obtain ⟨body, htext, hbody⟩ := text_of_quote hkey hwell.1
    obtain ⟨ls, hls, hspelled⟩ := members.spelled hwell.2.2.2.2 hrest
    refine ⟨_, .more hbody (v.sentence hwell.2.2.1 hvalue) hls, ?_⟩
    rw [List.map_cons, List.map_cons, List.map_append, List.map_cons, htext,
      text_of_head hcolon rfl hwell.2.1, text_of_head hcomma rfl hwell.2.2.2.1, hspelled]
    simp

end

theorem lexeme_structural {b : UInt8} (hb : Byte.isStructural b = true) : Lexeme [b] :=
  .structural hb

mutual

/-- A sentence is spelled by the tokens of a tree, wherever they stand. -/
theorem Sentence.exists_node : {ls : List Bytes} → Sentence ls →
    ∃ v : Node, v.WellFormed ∧ v.tokens = ls.map .bare ∧ ∀ l ∈ ls, Lexeme l
  | _, @Sentence.atom l h => by
    have hpiece : Piece (Token.bare l).text (Token.bare l).rest := h.lexeme
    exact ⟨.atom (.bare l), (Token.atom_iff hpiece).mp h, rfl,
      List.forall_mem_singleton.mpr h.lexeme⟩
  | _, .emptyArray =>
    ⟨.emptyArray (.bare [Byte.openArray]) (.bare [Byte.closeArray]), ⟨rfl, rfl⟩, rfl,
      List.forall_mem_cons.mpr ⟨lexeme_structural rfl,
        List.forall_mem_singleton.mpr (lexeme_structural rfl)⟩⟩
  | _, .array h => by
    obtain ⟨elements, hwell, htokens, hlexemes⟩ := h.exists_nodes
    refine ⟨.array (.bare [Byte.openArray]) elements, ⟨rfl, hwell⟩, ?_,
      List.forall_mem_cons.mpr ⟨lexeme_structural rfl, hlexemes⟩⟩
    exact congrArg (Token.bare [Byte.openArray] :: ·) htokens
  | _, .emptyObject =>
    ⟨.emptyObject (.bare [Byte.openObject]) (.bare [Byte.closeObject]), ⟨rfl, rfl⟩, rfl,
      List.forall_mem_cons.mpr ⟨lexeme_structural rfl,
        List.forall_mem_singleton.mpr (lexeme_structural rfl)⟩⟩
  | _, .object h => by
    obtain ⟨members, hwell, htokens, hlexemes⟩ := h.exists_fields
    refine ⟨.object (.bare [Byte.openObject]) members, ⟨rfl, hwell⟩, ?_,
      List.forall_mem_cons.mpr ⟨lexeme_structural rfl, hlexemes⟩⟩
    exact congrArg (Token.bare [Byte.openObject] :: ·) htokens

theorem Sentence.Elements.exists_nodes : {ls : List Bytes} → Sentence.Elements ls →
    ∃ elements : Nodes, elements.WellFormed ∧
      elements.tokens = (ls ++ [[Byte.closeArray]]).map .bare ∧
      ∀ l ∈ ls ++ [[Byte.closeArray]], Lexeme l
  | _, .last h => by
    obtain ⟨v, hwell, htokens, hlexemes⟩ := h.exists_node
    refine ⟨.last v (.bare [Byte.closeArray]), ⟨hwell, rfl⟩, ?_, ?_⟩
    · rw [Nodes.tokens_last, htokens, List.map_append, List.map_singleton]
    · simpa [or_imp, forall_and] using ⟨hlexemes, lexeme_structural rfl⟩
  | _, .more h hrest => by
    obtain ⟨v, hv, htokens, hlexemes⟩ := h.exists_node
    obtain ⟨elements, hwell, hmore, hothers⟩ := hrest.exists_nodes
    refine ⟨.more v (.bare [Byte.comma]) elements, ⟨hv, rfl, hwell⟩, ?_, ?_⟩
    · rw [Nodes.tokens_more, htokens, hmore]
      simp
    · rw [List.append_assoc, List.cons_append]
      exact List.forall_mem_append.mpr
        ⟨hlexemes, List.forall_mem_cons.mpr ⟨lexeme_structural rfl, hothers⟩⟩

theorem Sentence.Members.exists_fields : {ls : List Bytes} → Sentence.Members ls →
    ∃ members : Fields, members.WellFormed ∧
      members.tokens = (ls ++ [[Byte.closeObject]]).map .bare ∧
      ∀ l ∈ ls ++ [[Byte.closeObject]], Lexeme l
  | _, @Sentence.Members.last key _ hkey h => by
    obtain ⟨v, hwell, htokens, hlexemes⟩ := h.exists_node
    refine ⟨.last (.bare (quoted key)) (.bare [Byte.colon]) v (.bare [Byte.closeObject]),
      ⟨rfl, rfl, hwell, rfl⟩, ?_, ?_⟩
    · rw [Fields.tokens_last, htokens]
      simp
    · simpa [or_imp, forall_and] using
        ⟨Piece.string hkey, lexeme_structural rfl, hlexemes, lexeme_structural rfl⟩
  | _, @Sentence.Members.more key _ _ hkey h hrest => by
    obtain ⟨v, hv, htokens, hlexemes⟩ := h.exists_node
    obtain ⟨members, hwell, hmore, hothers⟩ := hrest.exists_fields
    refine ⟨.more (.bare (quoted key)) (.bare [Byte.colon]) v (.bare [Byte.comma]) members,
      ⟨rfl, rfl, hv, rfl, hwell⟩, ?_, ?_⟩
    · rw [Fields.tokens_more, htokens, hmore]
      simp
    · simp only [List.cons_append, List.append_assoc]
      exact List.forall_mem_cons.mpr ⟨.string hkey, List.forall_mem_cons.mpr
        ⟨lexeme_structural rfl, List.forall_mem_append.mpr
          ⟨hlexemes, List.forall_mem_cons.mpr ⟨lexeme_structural rfl, hothers⟩⟩⟩⟩

end

/-! ## §6 Acceptance -/

theorem Sentence.lexeme (h : Sentence ls) : ∀ l ∈ ls, Lexeme l := by
  obtain ⟨v, -, -, hlexemes⟩ := h.exists_node
  exact hlexemes

theorem pieces_bare (h : ∀ l ∈ ls, Lexeme l) : ∀ t ∈ ls.map Token.bare, Piece t.text t.rest :=
  List.forall_mem_map.mpr h

theorem map_text_bare (ls : List Bytes) : (ls.map Token.bare).map (·.text) = ls := by
  rw [List.map_map]
  exact List.map_id ls

namespace Token

theorem accepts_iff_passes (size : Nat) (ts : List Token) :
    (∃ items, outline size ts = .ok items) ↔ Passes size .start ts := by
  constructor
  · rintro ⟨items, h⟩
    obtain ⟨found, hfound, -⟩ := map_eq_ok_iff.mp h
    exact ⟨found, hfound⟩
  · rintro ⟨found, hfound⟩
    exact ⟨found.1, map_eq_ok_iff.mpr ⟨found, hfound, rfl⟩⟩

/-- The outline accepts the tokens that spell sentences. -/
theorem accepts_iff_sentence (size : Nat) (hpieces : ∀ t ∈ ts, Piece t.text t.rest) :
    (∃ items, outline size ts = .ok items) ↔ Sentence (ts.map (·.text)) := by
  constructor
  · rintro ⟨items, h⟩
    obtain ⟨v, hwell, rfl, -⟩ := (outline_eq_ok_iff size ts items).mp h
    exact v.sentence hwell hpieces
  · intro h
    obtain ⟨v, hwell, htokens, hlexemes⟩ := h.exists_node
    -- The tree has the same lexemes at other places.
    have hbare : Passes size .start ((ts.map (·.text)).map .bare) := by
      rw [← accepts_iff_passes]
      exact ⟨v.items, (outline_eq_ok_iff size _ _).mpr ⟨v, hwell, htokens, rfl⟩⟩
    rw [Outline.passes_iff_after size .start (pieces_bare hlexemes), map_text_bare] at hbare
    rw [accepts_iff_passes, Outline.passes_iff_after size .start hpieces]
    exact hbare

end Token

/-- What the tokens of an input spell that the outline accepts. -/
def Accepted (ls : List Bytes) : Prop :=
  ∃ input ts items, Token.scan input = .ok ts ∧ Token.outline input.length ts = .ok items ∧
    ts.map (·.text) = ls

/-- Lexemes with a space after each. -/
def spaced (ls : List Bytes) : Bytes := ls.flatMap (· ++ [0x20])

/-- Spaces are enough to keep lexemes apart. -/
theorem exists_splits_spaced (offset : Nat) (h : ∀ l ∈ ls, Lexeme l) :
    ∃ ts, Splits offset (spaced ls) ts ∧ ts.map (·.text) = ls := by
  induction ls generalizing offset with
  | nil => exact ⟨[], .blank fun b hb => absurd hb List.not_mem_nil, rfl⟩
  | cons l ls ih =>
    obtain ⟨hl, hls⟩ := List.forall_mem_cons.mp h
    obtain ⟨ts, hsplits, htexts⟩ := ih (offset + l.length + 1) hls
    have hspace : spaced (l :: ls) = l ++ 0x20 :: spaced ls := by simp [spaced]
    refine ⟨⟨offset, l, 0x20 :: spaced ls⟩ :: ts, ?_, congrArg (l :: ·) htexts⟩
    rw [hspace]
    exact splits_piece (hl.piece rfl) (Token.splits_cons rfl hsplits)

/-- The tokens of accepted inputs spell the sentences of the grammar, and all of them. -/
theorem accepted_iff_sentence (ls : List Bytes) : Accepted ls ↔ Sentence ls := by
  constructor
  · rintro ⟨input, ts, items, hscan, houtline, rfl⟩
    have hsplits := ((Token.scan_eq_ok_iff input ts).mp hscan).1
    exact (Token.accepts_iff_sentence input.length hsplits.pieces).mp ⟨items, houtline⟩
  · intro h
    obtain ⟨ts, hsplits, rfl⟩ := exists_splits_spaced 0 h.lexeme
    have hsome : ts ≠ [] := by
      rintro rfl
      obtain ⟨v, hwell, htokens, -⟩ := h.exists_node
      obtain ⟨t, ts, hfirst, -⟩ := v.exists_first hwell
      cases htokens.symm.trans hfirst
    obtain ⟨items, houtline⟩ := (Token.accepts_iff_sentence
      (spaced (ts.map (·.text))).length hsplits.pieces).mpr h
    exact ⟨_, ts, items, (Token.scan_eq_ok_iff _ ts).mpr ⟨hsplits, hsome⟩, houtline, rfl⟩

end JsonTree
