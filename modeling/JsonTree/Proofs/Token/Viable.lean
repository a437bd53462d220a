import JsonTree.Proofs.Token.Sentence

/-!
# Where the outline finds its faults

The outline reads tokens from left to right, and what it has read so far always is the beginning of
a sequence that it accepts: from every state that it can be in there is a way to a complete value.
So the token at fault is the first one that cannot stand where it does, and where the tokens run
out, something is still open. The cause tells which of the two it is, and what was expected.

## Main definitions

- `Viable`, `TakesValue`: lexemes that an accepted sequence begins with, and those after which any
  value may stand.
- `leftOpen`: the brackets that lexemes leave open.
- `Outline.State.Inner`: the states behind the first token.
- `Outline.State.completion`: lexemes that complete the value.
- `FaultAt`, `Unfinished`, `EarliestFault`: what a fault says about the tokens.

## Main statements

- `Outline.State.Inner.after`: the stack follows the brackets, and what is expected suits it.
- `viable_iff`: the machine gets over lexemes exactly if some accepted sequence begins with them.
- `takesValue_iff`: any value may stand exactly where the machine expects one.
- `Token.outline_viablePrefix`: the outline accepts the grammar, and its faults are the earliest.
-/

namespace JsonTree

open Grammar (quoted)
open Outline (Bracket Passes Role State)

/-! ## §1 Beginnings of sentences -/

/-- Some accepted sequence begins with these lexemes. -/
def Viable (ls : List Bytes) : Prop := ∃ more, Accepted (ls ++ more)

/-- Any value may stand after these lexemes. -/
def TakesValue (ls : List Bytes) : Prop := ∀ value, Sentence value → Viable (ls ++ value)

/-- It begins like a word and is none. -/
def Misspelled (l : Bytes) : Prop := BeginsWord l ∧ l ∉ Token.words

/-- The open brackets after a lexeme. -/
def bracketStep (stack : List Bracket) (l : Bytes) : List Bracket :=
  if l = [Byte.openArray] then .array :: stack
  else if l = [Byte.openObject] then .object :: stack
  else if l = [Byte.closeArray] ∨ l = [Byte.closeObject] then stack.tail
  else stack

/-- The brackets that lexemes leave open, innermost first. -/
def leftOpen (ls : List Bytes) : List Bracket := ls.foldl bracketStep []

/-! ## §2 The states of the machine -/

variable {t : Token} {ts : List Token} {l : Bytes} {ls : List Bytes} {stack : List Bracket}

/-- A token that is no structural byte opens and closes nothing. -/
theorem bracketStep_of_not_structural (h : Byte.isStructural t.head = false) :
    bracketStep stack t.text = stack := by
  have hne : ∀ b, Byte.isStructural b = true → t.text ≠ [b] := by
    intro b hb htext
    have hhead : t.head = b := by rw [Token.head, htext, List.headD_cons]
    exact ne_of_structural h hb hhead
  simp [bracketStep, hne Byte.openArray rfl, hne Byte.openObject rfl, hne Byte.closeArray rfl,
    hne Byte.closeObject rfl]

namespace Outline.State

variable {s next last : State} {role : Role}

/-- A state behind the first token: what is expected suits the innermost open bracket. -/
inductive Inner : State → Prop where
  | value (bracket : Bracket) (stack : List Bracket) : Inner ⟨.value, bracket :: stack⟩
  | element (stack : List Bracket) : Inner ⟨.element, .array :: stack⟩
  | key (stack : List Bracket) : Inner ⟨.key, .object :: stack⟩
  | member (stack : List Bracket) : Inner ⟨.member, .object :: stack⟩
  | colon (stack : List Bracket) : Inner ⟨.colon, .object :: stack⟩
  | separator (bracket : Bracket) (stack : List Bracket) : Inner ⟨.separator, bracket :: stack⟩
  | nothing : Inner ⟨.nothing, []⟩

theorem inner_afterValue (stack : List Bracket) : (afterValue stack).Inner := by
  cases stack with
  | nil => exact .nothing
  | cons bracket stack => exact .separator bracket stack

/-- While a value is incomplete, a bracket is open. -/
theorem Inner.stack_ne_nil (h : s.Inner) (hexpect : s.expect ≠ .nothing) : s.stack ≠ [] := by
  cases h with
  | nothing => exact absurd rfl hexpect
  | _ => exact List.cons_ne_nil _ _

/-- What a token does where a value must begin. -/
theorem inner_of_value (hpiece : Piece t.text t.rest)
    (h : advance ⟨.value, stack⟩ t = .ok (role, next)) :
    next.Inner ∧ next.stack = bracketStep stack t.text := by
  rcases advance_value_cases h with ⟨hhead, rfl⟩ | ⟨hhead, rfl⟩ | ⟨hhead, -, rfl⟩
  · rw [text_of_head hpiece rfl hhead]
    exact ⟨.element stack, rfl⟩
  · rw [text_of_head hpiece rfl hhead]
    exact ⟨.member stack, rfl⟩
  · exact ⟨inner_afterValue stack, (bracketStep_of_not_structural hhead).symm⟩

/-- A key leaves the brackets as they are. -/
theorem inner_of_key (h : advance ⟨.key, .object :: stack⟩ t = .ok (role, next)) :
    next.Inner ∧ next.stack = bracketStep (.object :: stack) t.text := by
  obtain ⟨hhead, rfl⟩ := advance_key_cases h
  exact ⟨.colon stack, (bracketStep_of_not_structural (by rw [hhead]; rfl)).symm⟩

/-- A step from the start, or from behind the first token, leads behind the first token. -/
theorem inner_of_advance (hs : s = .start ∨ s.Inner) (hpiece : Piece t.text t.rest)
    (h : s.advance t = .ok (role, next)) :
    next.Inner ∧ next.stack = bracketStep s.stack t.text := by
  rcases hs with rfl | hs
  · exact inner_of_value hpiece h
  cases hs with
  | value bracket stack => exact inner_of_value hpiece h
  | element stack =>
    -- An empty array may end at once; any other token begins its first element.
    by_cases hhead : t.head = Byte.closeArray
    · rw [advance_closeEmptyArray hhead] at h
      cases h
      rw [text_of_head hpiece rfl hhead]
      exact ⟨inner_afterValue stack, rfl⟩
    · rw [advance_element hhead] at h
      exact inner_of_value hpiece h
  | key stack => exact inner_of_key h
  | member stack =>
    -- The same with an empty object and its first key.
    by_cases hhead : t.head = Byte.closeObject
    · rw [advance_closeEmptyObject hhead] at h
      cases h
      rw [text_of_head hpiece rfl hhead]
      exact ⟨inner_afterValue stack, rfl⟩
    · rw [advance_member hhead] at h
      exact inner_of_key h
  | colon stack =>
    obtain ⟨hhead, rfl⟩ := advance_colon_cases h
    rw [text_of_head hpiece rfl hhead]
    exact ⟨.value .object stack, rfl⟩
  | separator bracket stack =>
    cases bracket with
    | array =>
      rcases advance_array_cases h with ⟨hhead, rfl⟩ | ⟨hhead, rfl⟩
      · rw [text_of_head hpiece rfl hhead]
        exact ⟨.value .array stack, rfl⟩
      · rw [text_of_head hpiece rfl hhead]
        exact ⟨inner_afterValue stack, rfl⟩
    | object =>
      rcases advance_object_cases h with ⟨hhead, rfl⟩ | ⟨hhead, rfl⟩
      · rw [text_of_head hpiece rfl hhead]
        exact ⟨.key stack, rfl⟩
      · rw [text_of_head hpiece rfl hhead]
        exact ⟨inner_afterValue stack, rfl⟩
  -- Nothing may follow a complete value.
  | nothing => cases h

theorem inner_of_step (hs : s = .start ∨ s.Inner) (hl : Lexeme l) (h : s.step l = some next) :
    next.Inner ∧ next.stack = bracketStep s.stack l := by
  obtain ⟨⟨role, next'⟩, hadvance, rfl⟩ := Option.map_eq_some_iff.mp h
  exact inner_of_advance (t := .bare l) hs hl (toOption_eq_some_iff.mp hadvance)

/-- Behind the first token the stack follows the brackets of the lexemes. -/
theorem Inner.after (hs : s.Inner) (hls : ∀ l ∈ ls, Lexeme l) (h : s.after ls = some last) :
    last.Inner ∧ last.stack = ls.foldl bracketStep s.stack := by
  induction ls generalizing s with
  | nil =>
    cases h
    exact ⟨hs, rfl⟩
  | cons l ls ih =>
    obtain ⟨hl, hls⟩ := List.forall_mem_cons.mp hls
    obtain ⟨next, hstep, hafter⟩ := Option.bind_eq_some_iff.mp h
    obtain ⟨hnext, hstack⟩ := inner_of_step (.inr hs) hl hstep
    rw [List.foldl_cons, ← hstack]
    exact ih hnext hls hafter

/-- From the start, any lexemes lead behind the first token. -/
theorem after_start (hls : ∀ l ∈ ls, Lexeme l) (h : State.start.after ls = some last) :
    (ls = [] ∧ last = .start ∨ last.Inner) ∧ last.stack = leftOpen ls := by
  cases ls with
  | nil =>
    cases h
    exact ⟨.inl ⟨rfl, rfl⟩, rfl⟩
  | cons l ls =>
    obtain ⟨hl, hls⟩ := List.forall_mem_cons.mp hls
    obtain ⟨next, hstep, hafter⟩ := Option.bind_eq_some_iff.mp h
    obtain ⟨hnext, hstack⟩ := inner_of_step (.inl rfl) hl hstep
    obtain ⟨hlast, hlastStack⟩ := hnext.after hls hafter
    refine ⟨.inr hlast, ?_⟩
    rw [hlastStack, hstack, leftOpen, List.foldl_cons]
    rfl

/-! ## §3 The way to a complete value -/

/-- The lexeme that closes a bracket. -/
def closer : Bracket → Bytes
  | .array => [Byte.closeArray]
  | .object => [Byte.closeObject]

/-- The lexemes that close open brackets. -/
def closers (stack : List Bracket) : List Bytes := stack.map closer

/-- Lexemes that complete the value. -/
def completion (s : State) : List Bytes :=
  match s.expect with
  | .value | .element => Bytes.ofAscii "null" :: closers s.stack
  | .key | .member => quoted [] :: [Byte.colon] :: Bytes.ofAscii "null" :: closers s.stack
  | .colon => [Byte.colon] :: Bytes.ofAscii "null" :: closers s.stack
  | .separator => closers s.stack
  | .nothing => []

theorem lexeme_null : Lexeme (Bytes.ofAscii "null") := by
  have hword : Piece (Bytes.ofAscii "null") [] ∧
      (Node.atom (.bare (Bytes.ofAscii "null"))).WellFormed :=
    Token.wellFormed_word (by decide) fun b hb => by cases hb
  exact hword.1

/-- A lexeme where a token with its bytes may stand. -/
theorem after_cons_of_advance (hl : Lexeme l) (h : s.advance (.bare l) = .ok (role, next))
    (ls : List Bytes) : s.after (l :: ls) = next.after ls := by
  have hstep : s.step l = some next := step_of_advance (t := .bare l) hl h
  rw [State.after, hstep, Option.bind_some]

theorem after_closers (stack : List Bracket) :
    (afterValue stack).after (closers stack) = some ⟨.nothing, []⟩ := by
  induction stack with
  | nil => rfl
  | cons bracket stack ih =>
    cases bracket with
    | array =>
      exact (after_cons_of_advance (.structural rfl) (advance_closeArray rfl) _).trans ih
    | object =>
      exact (after_cons_of_advance (.structural rfl) (advance_closeObject rfl) _).trans ih

theorem advance_null (stack : List Bracket) :
    advance ⟨.value, stack⟩ (.bare (Bytes.ofAscii "null")) = .ok (.scalar, afterValue stack) :=
  advance_atom rfl fun _ => by decide

theorem after_null_closers (stack : List Bracket) :
    State.after ⟨.value, stack⟩ (Bytes.ofAscii "null" :: closers stack) = some ⟨.nothing, []⟩ := by
  rw [after_cons_of_advance lexeme_null (advance_null stack)]
  exact after_closers stack

theorem after_colon_closers (stack : List Bracket) :
    State.after ⟨.colon, stack⟩ ([Byte.colon] :: Bytes.ofAscii "null" :: closers stack) =
      some ⟨.nothing, []⟩ := by
  rw [after_cons_of_advance (.structural rfl) (advance_colon rfl)]
  exact after_null_closers stack

/-- From every state behind the first token there is a way to a complete value. -/
theorem Inner.after_completion (hs : s.Inner) : s.after s.completion = some ⟨.nothing, []⟩ := by
  have hne : (Token.bare (Bytes.ofAscii "null")).head ≠ Byte.closeArray := by decide
  have hne' : (Token.bare (quoted [])).head ≠ Byte.closeObject := by decide
  cases hs with
  | value bracket stack => exact after_null_closers (bracket :: stack)
  | element stack =>
    rw [completion, after_cons_of_advance lexeme_null
      ((advance_element hne).trans (advance_null (.array :: stack)))]
    exact after_closers (.array :: stack)
  | key stack =>
    rw [completion, after_cons_of_advance (.string .empty) (advance_key rfl)]
    exact after_colon_closers (.object :: stack)
  | member stack =>
    rw [completion, after_cons_of_advance (.string .empty)
      ((advance_member hne').trans (advance_key rfl))]
    exact after_colon_closers (.object :: stack)
  | colon stack => exact after_colon_closers (.object :: stack)
  | separator bracket stack => exact after_closers (bracket :: stack)
  | nothing => rfl

theorem lexeme_closers (stack : List Bracket) : ∀ l ∈ closers stack, Lexeme l := by
  refine List.forall_mem_map.mpr fun bracket _ => ?_
  cases bracket <;> exact .structural rfl

theorem lexeme_completion (s : State) : ∀ l ∈ s.completion, Lexeme l := by
  have hnull : ∀ l ∈ Bytes.ofAscii "null" :: closers s.stack, Lexeme l :=
    List.forall_mem_cons.mpr ⟨lexeme_null, lexeme_closers s.stack⟩
  have hcolon : ∀ l ∈ [Byte.colon] :: Bytes.ofAscii "null" :: closers s.stack, Lexeme l :=
    List.forall_mem_cons.mpr ⟨.structural rfl, hnull⟩
  have hkey : ∀ l ∈ quoted [] :: [Byte.colon] :: Bytes.ofAscii "null" :: closers s.stack,
      Lexeme l := List.forall_mem_cons.mpr ⟨.string .empty, hcolon⟩
  unfold completion
  cases s.expect with
  | value => exact hnull
  | element => exact hnull
  | key => exact hkey
  | member => exact hkey
  | colon => exact hcolon
  | separator => exact lexeme_closers s.stack
  | nothing => exact fun l hl => absurd hl List.not_mem_nil

end Outline.State

/-! ## §4 What the machine gets over -/

open Outline

/-- The machine gets over sentences to a complete value, and over nothing else. -/
theorem sentence_iff_after (hls : ∀ l ∈ ls, Lexeme l) :
    Sentence ls ↔ ∃ s, State.start.after ls = some s ∧ s.expect = .nothing := by
  have haccepts := Token.accepts_iff_sentence 0 (pieces_bare hls)
  rw [map_text_bare] at haccepts
  rw [← haccepts, Token.accepts_iff_passes, passes_iff_after 0 .start (pieces_bare hls),
    map_text_bare]

/-- The machine gets over the beginnings of accepted sequences, and over nothing else. -/
theorem viable_iff (hls : ∀ l ∈ ls, Lexeme l) : Viable ls ↔ ∃ s, State.start.after ls = some s := by
  constructor
  · rintro ⟨more, h⟩
    have hsentence := (accepted_iff_sentence _).mp h
    obtain ⟨last, hlast, -⟩ := (sentence_iff_after hsentence.lexeme).mp hsentence
    rw [State.after_append] at hlast
    obtain ⟨s, hs, -⟩ := Option.bind_eq_some_iff.mp hlast
    exact ⟨s, hs⟩
  · rintro ⟨s, hs⟩
    have hlast : s.after s.completion = some ⟨.nothing, []⟩ := by
      rcases (State.after_start hls hs).1 with ⟨-, rfl⟩ | hinner
      · exact State.after_null_closers []
      · exact hinner.after_completion
    refine ⟨s.completion, (accepted_iff_sentence _).mpr ?_⟩
    have hlexemes := List.forall_mem_append.mpr ⟨hls, s.lexeme_completion⟩
    rw [sentence_iff_after hlexemes, State.after_append, hs]
    exact ⟨_, hlast, rfl⟩

/-- The machine gets over any value where one must begin. -/
theorem after_sentence (stack : List Bracket) (h : Sentence ls) :
    ∃ s, State.after ⟨.value, stack⟩ ls = some s := by
  obtain ⟨v, hwell, htokens, hlexemes⟩ := h.exists_node
  have hall := List.forall_mem_append.mpr ⟨hlexemes, State.lexeme_closers stack⟩
  -- With the brackets closed behind the value the machine gets to the end, hence over the value.
  have hpasses : Passes 0 ⟨.value, stack⟩ ((ls ++ State.closers stack).map .bare) := by
    obtain ⟨found, hfound⟩ := (passes_iff_after 0 (.afterValue stack)
      (pieces_bare (State.lexeme_closers stack))).mpr
        ⟨_, by rw [map_text_bare]; exact State.after_closers stack, rfl⟩
    rw [Passes, List.map_append, ← htokens, v.itemsFrom_append 0 hwell, hfound]
    exact ⟨_, rfl⟩
  obtain ⟨last, hlast, -⟩ := (passes_iff_after 0 ⟨.value, stack⟩ (pieces_bare hall)).mp hpasses
  rw [map_text_bare, State.after_append] at hlast
  obtain ⟨s, hs, -⟩ := Option.bind_eq_some_iff.mp hlast
  exact ⟨s, hs⟩

/-- A value may stand at the beginning of an array. -/
theorem after_element (stack : List Bracket) (h : Sentence ls) :
    State.after ⟨.element, stack⟩ ls = State.after ⟨.value, stack⟩ ls := by
  obtain ⟨v, hwell, htokens, -⟩ := h.exists_node
  obtain ⟨t, ts, hfirst, hhead⟩ := v.exists_first hwell
  cases ls with
  | nil => cases htokens.symm.trans hfirst
  | cons l ls =>
    cases htokens.symm.trans hfirst
    rw [State.after, State.after, State.step, State.step, advance_element hhead]

/-- A value is expected, whether or not the container may end instead. -/
def Outline.State.ExpectsValue (s : State) : Prop := s.expect = .value ∨ s.expect = .element

/-- Any value may stand exactly where the machine expects one. -/
theorem takesValue_iff (hls : ∀ l ∈ ls, Lexeme l) {s : State} (h : State.start.after ls = some s) :
    TakesValue ls ↔ s.ExpectsValue := by
  have hviable : ∀ value, Sentence value →
      (Viable (ls ++ value) ↔ ∃ last, s.after value = some last) := by
    intro value hvalue
    rw [viable_iff (List.forall_mem_append.mpr ⟨hls, hvalue.lexeme⟩), State.after_append, h]
    rfl
  constructor
  · intro htakes
    -- Of all values `null` tells the states apart: where a key may stand, a string might as well.
    have hnull : Sentence [Bytes.ofAscii "null"] := .atom ((Token.atom_iff
      (t := .bare (Bytes.ofAscii "null")) State.lexeme_null).mpr ⟨rfl, fun _ => by decide⟩)
    obtain ⟨last, hlast⟩ := (hviable _ hnull).mp (htakes _ hnull)
    obtain ⟨next, hstep, -⟩ := Option.bind_eq_some_iff.mp hlast
    rcases (State.after_start hls h).1 with ⟨-, rfl⟩ | hinner
    · exact .inl rfl
    · cases hinner with
      | value _ _ => exact .inl rfl
      | element _ => exact .inr rfl
      | separator bracket _ => cases bracket <;> cases hstep
      | _ => cases hstep
  · intro hexpect value hvalue
    rw [hviable value hvalue]
    obtain ⟨expect, stack⟩ := s
    rcases hexpect with rfl | rfl
    · exact after_sentence stack hvalue
    · rw [after_element stack hvalue]
      exact after_sentence stack hvalue

/-! ## §5 Faults -/

/-- A fault is at the first token that the machine does not get over, or it is where the tokens run
out before the value is complete. -/
theorem Outline.itemsFrom_eq_error {size : Nat} {s : State} {fault : Fault}
    (hpieces : ∀ t ∈ ts, Piece t.text t.rest) (h : itemsFrom size s ts = .error fault) :
    (∃ before t after last, ts = before ++ t :: after ∧ fault.offset = t.offset ∧
        s.after (before.map (·.text)) = some last ∧ last.advance t = .error fault.cause) ∨
      (∃ last, s.after (ts.map (·.text)) = some last ∧ fault.offset = size ∧
        last.endFault? = some fault.cause) := by
  induction ts generalizing s with
  | nil =>
    rw [itemsFrom] at h
    split at h
    · cases h
    · rename_i cause hcause
      cases h
      exact .inr ⟨s, rfl, rfl, hcause⟩
  | cons t ts ih =>
    obtain ⟨hpiece, hpieces⟩ := List.forall_mem_cons.mp hpieces
    cases hadvance : s.advance t with
    | error cause =>
      rw [itemsFrom, hadvance] at h
      cases h
      exact .inl ⟨[], t, ts, s, rfl, rfl, rfl, hadvance⟩
    | ok move =>
      obtain ⟨role, next⟩ := move
      have hstep := State.step_of_advance hpiece hadvance
      have hrest : itemsFrom size next ts = .error fault := by
        rw [itemsFrom_cons hadvance] at h
        exact map_eq_error_iff.mp h
      rcases ih hpieces hrest with ⟨before, t', after, last, rfl, hoffset, hlast, herror⟩ |
        ⟨last, hlast, hoffset, hend⟩
      · refine .inl ⟨t :: before, t', after, last, rfl, hoffset, ?_, herror⟩
        rw [List.map_cons, State.after, hstep, Option.bind_some, hlast]
      · refine .inr ⟨last, ?_, hoffset, hend⟩
        rw [List.map_cons, State.after, hstep, Option.bind_some, hlast]

/-- What a fault at a lexeme says about the ones before it. -/
structure FaultAt (before : List Bytes) (l : Bytes) (cause : Cause) : Prop where
  viable : Viable before
  not_viable : ¬ Viable (before ++ [l])
  trailingContent_iff : cause = .trailingContent ↔ Sentence before
  invalidLiteral_iff : cause = .invalidLiteral ↔ TakesValue before ∧ Misspelled l
  unexpectedCharacter_iff :
    cause = .unexpectedCharacter ↔ ¬ Sentence before ∧ ¬ (TakesValue before ∧ Misspelled l)

/-- What a fault at the end says about all the lexemes. -/
structure Unfinished (ls : List Bytes) (cause : Cause) : Prop where
  begins : ∃ more, more ≠ [] ∧ Accepted (ls ++ more)
  innermost :
    (cause = .unterminatedArray ∧ (leftOpen ls).head? = some .array) ∨
      (cause = .unterminatedObject ∧ (leftOpen ls).head? = some .object)

/-- A fault of the outline of some tokens, in an input of `size` bytes. -/
structure EarliestFault (size : Nat) (ts : List Token) (fault : Fault) : Prop where
  placed : (∃ t ∈ ts, fault.offset = t.offset) ∨ fault.offset = size
  at_token : ∀ before t after, ts = before ++ t :: after → fault.offset = t.offset →
    FaultAt (before.map (·.text)) t.text fault.cause
  at_end : fault.offset = size → Unfinished (ts.map (·.text)) fault.cause

theorem Token.misspelled_iff (hpiece : Piece t.text t.rest) :
    (t.beginsWord && !t.isWord) = true ↔ Misspelled t.text := by
  have hword : t.beginsWord = true → (t.isWord = true ↔ t.text ∈ words) := isWord_iff hpiece
  rw [Misspelled, ← beginsWord_iff, Bool.and_eq_true, Bool.not_eq_true', ← Bool.not_eq_true]
  exact and_congr_right fun hbegins => not_congr (hword hbegins)

namespace Outline

variable {s : State} {cause : Cause}

/-- The cause of a fault where a value must begin. -/
theorem beginValue_eq_error (hpiece : Piece t.text t.rest)
    (h : State.beginValue stack t = .error cause) :
    (Misspelled t.text ∧ cause = .invalidLiteral) ∨
      (¬ Misspelled t.text ∧ cause = .unexpectedCharacter) := by
  rw [← Token.misspelled_iff hpiece]
  unfold State.beginValue at h
  split at h
  · cases h
  · split at h
    · cases h
    · split at h
      · rename_i hstructural
        cases h
        right
        refine ⟨?_, rfl⟩
        intro hword
        have hbegins : t.beginsWord = true := (Bool.and_eq_true_iff.mp hword).1
        cases (Token.head_of_beginsWord hbegins).1.symm.trans hstructural
      · split at h
        · rename_i hword
          cases h
          exact .inl ⟨hword, rfl⟩
        · cases h

theorem beginMember_eq_error (h : State.beginMember stack t = .error cause) :
    cause = .unexpectedCharacter := by
  unfold State.beginMember at h
  split at h
  · cases h
  · cases h
    rfl

theorem continueIn_eq_error (h : State.continueIn stack t = .error cause) :
    cause = .unexpectedCharacter := by
  unfold State.continueIn at h
  split at h
  · split at h
    · cases h
    · split at h
      · cases h
      · cases h
        rfl
  · split at h
    · cases h
    · split at h
      · cases h
      · cases h
        rfl

/-- Why the machine does not get over a lexeme. -/
inductive Rejects (s : State) (l : Bytes) : Cause → Prop where
  | trailing : s.expect = .nothing → Rejects s l .trailingContent
  | literal : s.ExpectsValue → Misspelled l → Rejects s l .invalidLiteral
  | unexpected : s.expect ≠ .nothing → ¬ (s.ExpectsValue ∧ Misspelled l) →
      Rejects s l .unexpectedCharacter

/-- Where no value may stand, it does not matter what stands there instead. -/
theorem rejects_of_unexpected (hcause : cause = .unexpectedCharacter)
    (hnothing : s.expect ≠ .nothing) (hvalue : ¬ s.ExpectsValue) : Rejects s l cause := by
  subst hcause
  exact .unexpected hnothing fun h => hvalue h.1

theorem rejects_of_value (hpiece : Piece t.text t.rest)
    (h : State.beginValue stack t = .error cause) (hvalue : s.ExpectsValue) :
    Rejects s t.text cause := by
  rcases beginValue_eq_error hpiece h with ⟨hword, rfl⟩ | ⟨hword, rfl⟩
  · exact .literal hvalue hword
  · refine .unexpected ?_ fun h => hword h.2
    rcases hvalue with h | h <;> rw [h] <;> exact Expect.noConfusion

/-- The cause of a fault at a token, by what is expected there. -/
theorem rejects_of_advance (hpiece : Piece t.text t.rest) (h : s.advance t = .error cause) :
    Rejects s t.text cause := by
  obtain ⟨expect, stack⟩ := s
  cases expect with
  | value => exact rejects_of_value hpiece h (.inl rfl)
  | element =>
    simp only [State.advance] at h
    split at h
    · cases h
    · exact rejects_of_value hpiece h (.inr rfl)
  | key =>
    exact rejects_of_unexpected (beginMember_eq_error h) (by simp) (by simp [State.ExpectsValue])
  | member =>
    simp only [State.advance] at h
    split at h
    · cases h
    · exact rejects_of_unexpected (beginMember_eq_error h) (by simp)
        (by simp [State.ExpectsValue])
  | colon =>
    simp only [State.advance] at h
    split at h
    · cases h
    · cases h
      exact rejects_of_unexpected rfl (by simp) (by simp [State.ExpectsValue])
  | separator =>
    exact rejects_of_unexpected (continueIn_eq_error h) (by simp) (by simp [State.ExpectsValue])
  | nothing =>
    cases h
    exact .trailing rfl

/-- The cause of a fault where the tokens run out, by the innermost open bracket. -/
theorem State.Inner.endFault (hs : s.Inner) (h : s.endFault? = some cause) :
    (cause = .unterminatedArray ∧ s.stack.head? = some .array) ∨
      (cause = .unterminatedObject ∧ s.stack.head? = some .object) := by
  cases hs with
  | value bracket stack =>
    cases bracket with
    | array => exact .inl ⟨(Option.some.inj h).symm, rfl⟩
    | object => exact .inr ⟨(Option.some.inj h).symm, rfl⟩
  | separator bracket stack =>
    cases bracket with
    | array => exact .inl ⟨(Option.some.inj h).symm, rfl⟩
    | object => exact .inr ⟨(Option.some.inj h).symm, rfl⟩
  | element stack => exact .inl ⟨(Option.some.inj h).symm, rfl⟩
  | key stack => exact .inr ⟨(Option.some.inj h).symm, rfl⟩
  | member stack => exact .inr ⟨(Option.some.inj h).symm, rfl⟩
  | colon stack => exact .inr ⟨(Option.some.inj h).symm, rfl⟩
  | nothing => cases h

end Outline

/-- A fault at a token is the earliest one, and its cause is told by what comes before. -/
theorem faultAt_of_advance {before : List Bytes} {s : State} {cause : Cause}
    (hbefore : ∀ l ∈ before, Lexeme l) (hpiece : Piece t.text t.rest)
    (hs : State.start.after before = some s) (h : s.advance t = .error cause) :
    FaultAt before t.text cause := by
  have hsentence : Sentence before ↔ s.expect = .nothing := by
    rw [sentence_iff_after hbefore, hs]
    simp
  have hall : ∀ l ∈ before ++ [t.text], Lexeme l :=
    List.forall_mem_append.mpr ⟨hbefore, List.forall_mem_singleton.mpr hpiece.lexeme⟩
  have hstuck : ¬ Viable (before ++ [t.text]) := by
    rw [viable_iff hall, State.after_append, hs, Option.bind_some, State.after,
      State.step_of_error hpiece h]
    rintro ⟨last, hlast⟩
    cases hlast
  have hviable : Viable before := (viable_iff hbefore).mpr ⟨s, hs⟩
  have htakes := takesValue_iff hbefore hs
  -- A complete value and a place for one exclude each other, so the three causes do too.
  cases rejects_of_advance hpiece h with
  | trailing hexpect =>
    have hvalue : ¬ s.ExpectsValue := by simp [State.ExpectsValue, hexpect]
    refine ⟨hviable, hstuck, ?_, ?_, ?_⟩ <;> simp [hsentence, htakes, hexpect, hvalue]
  | literal hvalue hword =>
    have hexpect : s.expect ≠ .nothing := by
      rcases hvalue with h | h <;> simp [h]
    refine ⟨hviable, hstuck, ?_, ?_, ?_⟩ <;> simp [hsentence, htakes, hexpect, hvalue, hword]
  | unexpected hexpect hvalue =>
    refine ⟨hviable, hstuck, ?_, ?_, ?_⟩ <;> simp [hsentence, htakes, hexpect, hvalue]

/-- Where the tokens run out, some bracket is open, and the innermost one is at fault. -/
theorem unfinished_of_endFault {s : State} {cause : Cause} (hls : ∀ l ∈ ls, Lexeme l)
    (hsome : ls ≠ []) (hs : State.start.after ls = some s) (h : s.endFault? = some cause) :
    Unfinished ls cause := by
  obtain ⟨hcases, hstack⟩ := State.after_start hls hs
  have hinner : s.Inner := by
    rcases hcases with ⟨hnil, -⟩ | hinner
    · exact absurd hnil hsome
    · exact hinner
  have hincomplete : ¬ Accepted ls := by
    rw [accepted_iff_sentence, sentence_iff_after hls, hs]
    rintro ⟨last, hlast, hexpect⟩
    cases hlast
    rw [State.endFault?, hexpect] at h
    cases h
  obtain ⟨more, hmore⟩ := (viable_iff hls).mpr ⟨s, hs⟩
  refine ⟨⟨more, ?_, hmore⟩, ?_⟩
  -- Were nothing missing, the outline would have accepted what is there.
  · rintro rfl
    rw [List.append_nil] at hmore
    exact hincomplete hmore
  · rw [← hstack]
    exact hinner.endFault h

/-- The tokens before a fault begin some accepted sequence, and with the token at fault they do not;
where a fault is at the end, all tokens begin a longer one. -/
theorem Token.earliestFault_of_outline {input : Bytes} {fault : Fault}
    (hsplits : Splits 0 input ts) (hsome : ts ≠ [])
    (h : Token.outline input.length ts = .error fault) :
    EarliestFault input.length ts fault := by
  have hpieces := hsplits.pieces
  have hlexemes : ∀ l ∈ ts.map (·.text), Lexeme l :=
    List.forall_mem_map.mpr fun t ht => (hpieces t ht).lexeme
  have hinside : ∀ t ∈ ts, t.offset < input.length := by
    intro t ht
    have hbounds := hsplits.offset_bounds t ht
    omega
  have hrun : Outline.itemsFrom input.length .start ts = .error fault := map_eq_error_iff.mp h
  rcases itemsFrom_eq_error hpieces hrun with ⟨before, t, after, s, hts, hoffset, hs, hadvance⟩ |
    ⟨s, hs, hoffset, hend⟩
  · have ht : t ∈ ts := by
      rw [hts]
      exact List.mem_append_right _ List.mem_cons_self
    refine ⟨.inl ⟨t, ht, hoffset⟩, ?_, ?_⟩
    · intro before' t' after' hts' hoffset'
      obtain ⟨rfl, rfl⟩ := hsplits.eq_of_offset hts hts' (hoffset.symm.trans hoffset')
      rw [hts, List.map_append] at hlexemes
      exact faultAt_of_advance (List.forall_mem_append.mp hlexemes).1 (hpieces t ht) hs hadvance
    · intro hlast
      have := hinside t ht
      omega
  · refine ⟨.inr hoffset, ?_, ?_⟩
    · intro before t after hts hoffset'
      have ht : t ∈ ts := by
        rw [hts]
        exact List.mem_append_right _ List.mem_cons_self
      have := hinside t ht
      omega
    · intro _
      exact unfinished_of_endFault hlexemes (by simpa using hsome) hs hend

/-- The outline accepts exactly the sentences of the grammar, its faults are the earliest ones, and
a bracket is open whenever the value is incomplete behind the first token. -/
theorem Token.outline_viablePrefix {input : Bytes} (hscan : Token.scan input = .ok ts) :
    ((∃ items, Token.outline input.length ts = .ok items) ↔ Sentence (ts.map (·.text))) ∧
      (∀ fault, Token.outline input.length ts = .error fault →
        EarliestFault input.length ts fault) ∧
      ∀ before after last, ts = before ++ after → before ≠ [] →
        State.start.after (before.map (·.text)) = some last →
        last.expect ≠ .nothing → last.stack ≠ [] := by
  obtain ⟨hsplits, hsome⟩ := (scan_eq_ok_iff input ts).mp hscan
  refine ⟨accepts_iff_sentence input.length hsplits.pieces, ?_, ?_⟩
  · exact fun fault h => earliestFault_of_outline hsplits hsome h
  · rintro before after last rfl hbefore hlast hexpect
    have hlexemes : ∀ l ∈ before.map (·.text), Lexeme l :=
      List.forall_mem_map.mpr fun t ht => (hsplits.pieces t (List.mem_append_left _ ht)).lexeme
    rcases (State.after_start hlexemes hlast).1 with ⟨hnil, -⟩ | hinner
    · exact absurd (List.map_eq_nil_iff.mp hnil) hbefore
    · exact hinner.stack_ne_nil hexpect

/-- The fault of `[1,tru` is at its last token, which stands where a value may and is no word. -/
theorem Token.outline_viablePrefix_misspelled :
    ∃ before t, Token.scan (Bytes.ofAscii "[1,tru") = .ok (before ++ [t]) ∧
      FaultAt (before.map (·.text)) t.text .invalidLiteral := by
  have hscan : Token.scan (Bytes.ofAscii "[1,tru") =
      .ok ([⟨0, Bytes.ofAscii "[", Bytes.ofAscii "1,tru"⟩,
        ⟨1, Bytes.ofAscii "1", Bytes.ofAscii ",tru"⟩,
        ⟨2, Bytes.ofAscii ",", Bytes.ofAscii "tru"⟩] ++ [⟨3, Bytes.ofAscii "tru", []⟩]) := rfl
  have hfault := (Token.outline_viablePrefix hscan).2.1 ⟨.invalidLiteral, 3⟩ rfl
  exact ⟨_, _, hscan, hfault.at_token _ _ [] rfl rfl⟩

end JsonTree
