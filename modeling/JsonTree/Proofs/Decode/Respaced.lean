import JsonTree.Proofs.Decode.Apart
import JsonTree.Proofs.Decode.Faults
import JsonTree.Proofs.Error.Position

/-!
# Whitespace

The tokens of a text stay the same when whitespace is put before, between and behind them. What is
decoded then stays the same too, and so does a failure, up to the place, which moves with its token.
A number that is decoded at the root is the same number inside a container, where other bytes may
end it.

## Main definitions

- `SamePlace`: equally far behind the first byte of one token, or two ends.
- `Fault.Alike`, `ParseError.Alike`: two failures of one cause at one place.

## Main statements

- `Outline.itemsFrom_alike`, `FirstBad.moved`: faults depend on the bytes of the tokens only.
- `decode_alike`: texts with the same tokens are decoded alike.
- `decode_respaced`: that, and numbers at the root and in containers.
-/

namespace JsonTree

open Grammar
open Outline (Bracket State itemsFrom)

/-! ## §1 What fails -/

/-- Corresponding places of two texts: equally far behind the first byte of one token, but inside of
it, or the two ends. -/
inductive SamePlace (ts ts' : List Token) (size size' : Nat) : Nat → Nat → Prop where
  | token {i k : Nat} {t t' : Token} :
      ts[i]? = some t → ts'[i]? = some t' → k < t.text.length →
      SamePlace ts ts' size size' (t.offset + k) (t'.offset + k)
  | ending : SamePlace ts ts' size size' size size'

/-- Two faults of one cause at one place. -/
structure Fault.Alike (ts ts' : List Token) (size size' : Nat) (fault fault' : Fault) : Prop where
  cause_eq : fault.cause = fault'.cause
  place : SamePlace ts ts' size size' fault.offset fault'.offset

section

variable {ts ts' : List Token} {t t' : Token} {size size' limit level : Nat} {fault fault' : Fault}
  {stack : List Bracket}

theorem SamePlace.cons {offset offset' : Nat} (h : SamePlace ts ts' size size' offset offset')
    (t t' : Token) : SamePlace (t :: ts) (t' :: ts') size size' offset offset' := by
  cases h with
  | token ht ht' hk => exact .token (i := _ + 1) ht ht' hk
  | ending => exact .ending

/-- The outline fails alike on tokens with the same bytes. -/
theorem Outline.itemsFrom_alike (hpieces : ∀ t ∈ ts, Piece t.text t.rest)
    (hpieces' : ∀ t ∈ ts', Piece t.text t.rest)
    (htexts : ts.map (·.text) = ts'.map (·.text)) {s : State}
    (h : itemsFrom size s ts = .error fault) :
    ∃ fault', itemsFrom size' s ts' = .error fault' ∧ fault.Alike ts ts' size size' fault' := by
  induction ts generalizing s ts' with
  | nil =>
    obtain rfl : ts' = [] := List.map_eq_nil_iff.mp htexts.symm
    rw [itemsFrom] at h
    split at h
    · cases h
    · rename_i cause hcause
      cases h
      refine ⟨⟨cause, size'⟩, ?_, rfl, .ending⟩
      rw [itemsFrom, hcause]
  | cons t ts ih =>
    obtain ⟨t', ts', rfl, htext, htexts⟩ := List.map_eq_cons_iff.mp htexts.symm
    obtain ⟨hpiece, hpieces⟩ := List.forall_mem_cons.mp hpieces
    obtain ⟨hpiece', hpieces'⟩ := List.forall_mem_cons.mp hpieces'
    -- The machine makes the same step, because it does not see where the tokens stand.
    have hstep : s.advance t' = s.advance t := by
      rw [← s.advance_bare hpiece, ← s.advance_bare hpiece', htext]
    cases hadvance : s.advance t with
    | error cause =>
      rw [itemsFrom, hadvance] at h
      cases h
      refine ⟨⟨cause, t'.offset⟩, ?_, rfl, ?_⟩
      · rw [itemsFrom, hstep, hadvance]
      · exact .token (i := 0) (k := 0) rfl rfl (List.length_pos_iff.mpr hpiece.ne_nil)
    | ok move =>
      obtain ⟨role, next⟩ := move
      rw [itemsFrom_cons hadvance] at h
      obtain ⟨fault', herror, hcause, hplace⟩ :=
        ih hpieces hpieces' htexts.symm (map_eq_error_iff.mp h)
      refine ⟨fault', ?_, hcause, hplace.cons t t'⟩
      rw [itemsFrom_cons (hstep.trans hadvance), herror]
      rfl

/-- The first bad escape lies inside of the contents, or right behind them. -/
theorem Grammar.FirstBadEscape.le_length {body : Bytes} {cause : Cause} {k : Nat}
    (h : FirstBadEscape body cause k) : k ≤ body.length := by
  obtain ⟨-, hbad⟩ := h
  rw [List.length_append]
  refine Nat.add_le_add_left ?_ _
  cases hbad with
  | letter _ _ | low _ _ | alone _ _ _ | unpaired _ _ _ _ => exact Nat.zero_le _
  | digits _ => simp only [List.length_cons]; omega
  | lowDigits hquad _ _ =>
    cases hquad
    simp only [List.length_append, List.length_cons, List.length_nil]
    omega

/-- A token with the same bytes is bad alike. -/
theorem Token.Bad.moved (hpiece : Piece t.text t.rest) (htext : t'.text = t.text)
    (h : t.Bad limit level fault) :
    ∃ k, k < t.text.length ∧ fault.offset = t.offset + k ∧
      t'.Bad limit level ⟨fault.cause, t'.offset + k⟩ := by
  have hpos : 0 < t.text.length := List.length_pos_iff.mpr hpiece.ne_nil
  have hhead : t'.head = t.head := by rw [Token.head, htext, Token.head]
  cases h with
  | @string body cause k hquoted hbad =>
    refine ⟨1 + k, ?_, Nat.add_assoc .., ?_⟩
    · have hle := hbad.le_length
      rw [hquoted, quoted, List.length_append, List.length_cons, List.length_singleton]
      omega
    · rw [← Nat.add_assoc]
      exact .string (htext.trans hquoted) hbad
  | number hfirst hnone => exact ⟨0, hpos, rfl, .number (hhead ▸ hfirst) (htext ▸ hnone)⟩
  | scalar hfirst hminus hdigit hword =>
    exact ⟨0, hpos, rfl,
      .scalar (hhead ▸ hfirst) (hhead ▸ hminus) (hhead ▸ hdigit) (htext ▸ hword)⟩
  | bracket hbracket hlevel => exact ⟨0, hpos, rfl, .bracket (hhead ▸ hbracket) hlevel⟩

/-- What is marked in one list of tokens lies at the same index in another one with the same
bytes. -/
theorem exists_split_of_texts {before after : List Token}
    (htexts : (before ++ t :: after).map (·.text) = ts'.map (·.text)) :
    ∃ before' t' after', ts' = before' ++ t' :: after' ∧
      before'.map (·.text) = before.map (·.text) ∧ t'.text = t.text := by
  rw [List.map_append, List.map_cons, eq_comm, List.map_eq_append_iff] at htexts
  obtain ⟨before', rest, rfl, hbefore, hrest⟩ := htexts
  obtain ⟨t', after', rfl, ht, -⟩ := List.map_eq_cons_iff.mp hrest
  exact ⟨before', t', after', rfl, hbefore, ht⟩

theorem Clean.moved (hpieces' : ∀ t ∈ ts', Piece t.text t.rest)
    (htexts : ts.map (·.text) = ts'.map (·.text)) (h : Clean limit stack ts) :
    Clean limit stack ts' := by
  rintro before' t' after' rfl fault hbad
  obtain ⟨before, t, after, rfl, hbefore, ht⟩ := exists_split_of_texts htexts.symm
  obtain ⟨k, -, -, hbad⟩ := hbad.moved (hpieces' t' (by simp)) ht
  rw [opened, ← hbefore] at hbad
  exact h before t after rfl _ hbad

/-- The first bad token is the same one. -/
theorem FirstBad.moved (hpieces : ∀ t ∈ ts, Piece t.text t.rest)
    (hpieces' : ∀ t ∈ ts', Piece t.text t.rest)
    (htexts : ts.map (·.text) = ts'.map (·.text)) (h : FirstBad limit stack ts fault) :
    ∃ fault', FirstBad limit stack ts' fault' ∧ fault.Alike ts ts' size size' fault' := by
  obtain ⟨before, t, after, rfl, hclean, hbad⟩ := h
  obtain ⟨before', t', after', rfl, hbefore, ht⟩ := exists_split_of_texts htexts
  obtain ⟨k, hk, hoffset, hbad⟩ := hbad.moved (hpieces t (by simp)) ht
  rw [opened, ← hbefore] at hbad
  have hlength : before'.length = before.length := by
    simpa using congrArg List.length hbefore
  have hpieces' := (List.forall_mem_append.mp hpieces').1
  refine ⟨⟨fault.cause, t'.offset + k⟩,
    ⟨before', t', after', rfl, hclean.moved hpieces' hbefore.symm, hbad⟩, rfl, ?_⟩
  rw [hoffset]
  exact .token (i := before.length) (by simp) (by simp [← hlength]) hk

end

/-! ## §2 Whole texts -/

namespace Decode

variable {input input' : Bytes} {ts ts' : List Token} {fault : Fault} (form : Representation)
  (requested : Nat)

theorem readInput_of_scan_error (h : Token.scan input = .error fault) :
    readInput form requested input = .error fault := by
  simp only [readInput, Cursor.ofInput, h, bind, Except.bind]

theorem readInput_of_outline_error (hscan : Token.scan input = .ok ts)
    (h : Token.outline input.length ts = .error fault) :
    readInput form requested input = .error fault := by
  simp only [readInput, Cursor.ofInput, hscan, h, bind, Except.bind]

/-- A text without tokens fails at its end. -/
theorem readInput_blank (h : Splits 0 input []) :
    readInput form requested input = .error ⟨.unexpectedEnd, input.length⟩ :=
  readInput_of_scan_error form requested
    ((Token.scan_eq_error_iff input _).mpr (.inl ⟨h, rfl⟩))

/-- Where one of two texts with the same tokens fails, the other one fails alike. -/
theorem readInput_error_moved (hsplits : Splits 0 input ts) (hsplits' : Splits 0 input' ts')
    (htexts : ts.map (·.text) = ts'.map (·.text))
    (h : readInput form requested input = .error fault) :
    ∃ fault', readInput form requested input' = .error fault' ∧
      fault.Alike ts ts' input.length input'.length fault' := by
  by_cases hsome : ts = []
  · subst hsome
    obtain rfl : ts' = [] := List.map_eq_nil_iff.mp htexts.symm
    rw [readInput_blank form requested hsplits] at h
    cases h
    exact ⟨_, readInput_blank form requested hsplits', rfl, .ending⟩
  have hsome' : ts' ≠ [] := by
    rintro rfl
    exact hsome (List.map_eq_nil_iff.mp htexts)
  have hscan := (Token.scan_eq_ok_iff input ts).mpr ⟨hsplits, hsome⟩
  have hscan' := (Token.scan_eq_ok_iff input' ts').mpr ⟨hsplits', hsome'⟩
  cases houtline : Token.outline input.length ts with
  | error fault₁ =>
    rw [readInput_of_outline_error form requested hscan houtline] at h
    cases h
    obtain ⟨fault', hrun, halike⟩ := Outline.itemsFrom_alike hsplits.pieces hsplits'.pieces htexts
      (map_eq_error_iff.mp houtline)
    exact ⟨fault', readInput_of_outline_error form requested hscan' (map_eq_error_iff.mpr hrun),
      halike⟩
  | ok items =>
    obtain ⟨v, hv, rfl, -⟩ := (Token.outline_eq_ok_iff _ _ _).mp houtline
    cases houtline' : Token.outline input'.length ts' with
    -- Were the other sequence no value, this one would be none.
    | error fault' =>
      obtain ⟨fault'', hrun, -⟩ : ∃ fault'', itemsFrom input.length _ v.tokens = .error fault'' ∧
          fault'.Alike ts' v.tokens input'.length input.length fault'' :=
        Outline.itemsFrom_alike hsplits'.pieces hsplits.pieces htexts.symm
          (map_eq_error_iff.mp houtline')
      cases houtline.symm.trans (map_eq_error_iff.mpr hrun)
    | ok items' =>
      obtain ⟨v', hv', rfl, -⟩ := (Token.outline_eq_ok_iff _ _ _).mp houtline'
      have hfirst := ((checked_readInput form requested hv hscan).error_iff fault).mp h
      obtain ⟨fault', hfirst', halike⟩ := hfirst.moved hsplits.pieces hsplits'.pieces htexts
      exact ⟨fault', ((checked_readInput form requested hv' hscan').error_iff fault').mpr hfirst',
        halike⟩

/-- Where both of two texts with the same tokens are read, they are read as the same value. -/
theorem readInput_ok_eq (hsplits : Splits 0 input ts) (hsplits' : Splits 0 input' ts')
    (htexts : ts.map (·.text) = ts'.map (·.text)) {x x' : Value}
    (h : readInput form requested input = .ok x) (h' : readInput form requested input' = .ok x') :
    x = x' := by
  obtain ⟨v, hv, hscan, hread⟩ := (readInput_eq_ok_iff form requested input x).mp h
  obtain ⟨v', hv', hscan', hread'⟩ := (readInput_eq_ok_iff form requested input' x').mp h'
  have hrun := Token.runFrom_splits ((Token.scan_eq_ok_iff input _).mp hscan).1
  have hrun' := Token.runFrom_splits ((Token.scan_eq_ok_iff input' _).mp hscan').1
  rw [Token.runFrom_splits hsplits] at hrun
  rw [Token.runFrom_splits hsplits'] at hrun'
  cases hrun
  cases hrun'
  exact Node.read_eq_of_texts form hv hv' hsplits.pieces hsplits'.pieces htexts hread hread'

end Decode

/-! ### Errors -/

/-- Two errors of one cause at one place, which are told of with the same words. -/
structure ParseError.Alike (ts ts' : List Token) (size size' : Nat) (e e' : ParseError) : Prop where
  cause_eq : e.cause = e'.cause
  detail_eq : e.detail = e'.detail
  place : SamePlace ts ts' size size' e.position.offset e'.position.offset

/-- Corresponding places lie in the two texts, and the same byte stands there, if any. -/
theorem SamePlace.getElem? {input input' : Bytes} {ts ts' : List Token}
    (hsplits : Splits 0 input ts) (hsplits' : Splits 0 input' ts')
    (htexts : ts.map (·.text) = ts'.map (·.text))
    {offset offset' : Nat} (h : SamePlace ts ts' input.length input'.length offset offset') :
    offset ≤ input.length ∧ offset' ≤ input'.length ∧ input[offset]? = input'[offset']? := by
  cases h with
  | @token i k t t' ht ht' hk =>
    have htext : t'.text = t.text := by
      have hget := congrArg (·[i]?) htexts
      simpa [ht, ht', eq_comm] using hget
    obtain ⟨hle, hbyte⟩ := hsplits.getElem?_token (List.mem_of_getElem? ht) hk
    obtain ⟨hle', hbyte'⟩ := hsplits'.getElem?_token (List.mem_of_getElem? ht') (htext ▸ hk)
    exact ⟨hle, hle', by rw [hbyte, hbyte', htext]⟩
  | ending => exact ⟨Nat.le_refl _, Nat.le_refl _, by simp⟩

theorem Fault.Alike.locate {input input' : Bytes} {ts ts' : List Token} {fault fault' : Fault}
    (hsplits : Splits 0 input ts) (hsplits' : Splits 0 input' ts')
    (htexts : ts.map (·.text) = ts'.map (·.text))
    (h : fault.Alike ts ts' input.length input'.length fault') :
    (fault.locate input).Alike ts ts' input.length input'.length (fault'.locate input') := by
  obtain ⟨hle, hle', hbyte⟩ := h.place.getElem? hsplits hsplits' htexts
  refine ⟨h.cause_eq, ?_, ?_⟩
  · simp only [Fault.locate, Fault.detail, h.cause_eq, hbyte]
  · simp only [Fault.locate, Position.offset_ofOffset hle, Position.offset_ofOffset hle']
    exact h.place

/-- Texts with the same tokens are decoded as the same value, or they fail alike. -/
theorem decode_alike {input input' : Bytes} {ts ts' : List Token} (hsplits : Splits 0 input ts)
    (hsplits' : Splits 0 input' ts') (htexts : ts.map (·.text) = ts'.map (·.text))
    (form : Representation) (requested : Nat) :
    (∃ v, decode form requested input = .ok v ∧ decode form requested input' = .ok v) ∨
      ∃ e e', decode form requested input = .error e ∧ decode form requested input' = .error e' ∧
        e.Alike ts ts' input.length input'.length e' := by
  rw [decode_eq_readInput, decode_eq_readInput]
  cases h : Decode.readInput form requested input with
  | error fault =>
    obtain ⟨fault', h', halike⟩ :=
      Decode.readInput_error_moved form requested hsplits hsplits' htexts h
    right
    exact ⟨_, _, rfl, by rw [h']; rfl, halike.locate hsplits hsplits' htexts⟩
  | ok x =>
    cases h' : Decode.readInput form requested input' with
    | error fault' =>
      obtain ⟨fault, h'', -⟩ :=
        Decode.readInput_error_moved form requested hsplits' hsplits htexts.symm h'
      cases h.symm.trans h''
    | ok x' =>
      obtain rfl := Decode.readInput_ok_eq form requested hsplits hsplits' htexts h h'
      exact .inl ⟨x, rfl, rfl⟩

/-! ## §3 Numbers in containers -/

theorem Value.ofNumber_injective {n n' : Number} (h : Value.ofNumber n = .ofNumber n') :
    n = n' := by
  cases n <;> cases n' <;> cases h <;> rfl

/-- A tree of a single token is an atom. -/
theorem Node.eq_atom {v : Node} (hv : v.WellFormed) {t : Token} (h : v.tokens = [t]) :
    v = .atom t := by
  cases v with
  | atom t' => cases h; rfl
  | emptyArray opening closing | emptyObject opening closing => cases h
  | array opening elements =>
    obtain ⟨first, others, hfirst, -⟩ := elements.exists_first hv.2
    have htokens : opening :: elements.tokens = [t] := h
    rw [hfirst] at htokens
    cases htokens
  | object opening members =>
    obtain ⟨first, others, hfirst, -⟩ := members.exists_first hv.2
    have htokens : opening :: members.tokens = [t] := h
    rw [hfirst] at htokens
    cases htokens

section

variable {form : Representation} {requested : Nat} {input : Bytes} {t : Token} {n : Number}

/-- The token of a number that is decoded is exactly a literal that denotes the number. -/
theorem numeral_of_decode (hsplits : Splits 0 input [t])
    (h : decode form requested input = .ok (.ofNumber n)) :
    ∃ l, Numeral t.text l ∧ Denotes l n := by
  rw [decode_eq_ok_iff, Decode.readInput_eq_ok_iff] at h
  obtain ⟨v, hv, hscan, hread⟩ := h
  have hrun := Token.runFrom_splits ((Token.scan_eq_ok_iff input _).mp hscan).1
  rw [Token.runFrom_splits hsplits, Except.ok.injEq, Token.Run.mk.injEq] at hrun
  obtain rfl := Node.eq_atom hv hrun.2.2.symm
  rw [Node.read_atom] at hread
  have hpiece : Piece t.text t.rest := hsplits.pieces t List.mem_cons_self
  rcases Token.readAtom_kinds hpiece hv.1 hread with ⟨l, n', hnumeral, hdenotes, heq⟩ |
    ⟨-, text, -, heq⟩ | ⟨-, heq⟩ | ⟨-, heq⟩ | ⟨-, heq⟩
  · obtain rfl := Value.ofNumber_injective heq
    exact ⟨l, hnumeral, hdenotes⟩
  -- The value of another atom is no number.
  all_goals cases n <;> cases heq

end

/-- A live value that says a number is that number. -/
theorem Live.eq_ofNumber {v : Live} {n : Number} (h : v.contents = .ofNumber n) :
    v = .ofNumber n := by
  cases n <;> cases v <;> cases h <;> rfl

/-- A literal that denotes a number is read as it inside a container, in front of whitespace, a
comma or a closing bracket, whatever follows. -/
theorem Decode.parseValue_numeral {text : Bytes} {l : Literal} {n : Number} (h : Numeral text l)
    (hdenotes : Denotes l n) (r : Request) (ahead depth size offset count : Nat)
    (last : Option Outline.Item) (items : List Outline.Item) {b : UInt8} (rest : Bytes)
    (hb : Byte.isWhitespace b = true ∨ b ∈ [Byte.comma, Byte.closeArray, Byte.closeObject]) :
    let item : Outline.Item := ⟨⟨offset, text, b :: rest⟩, count⟩
    parseValue r (ahead + 1) false ⟨⟨size, last, item :: items⟩, depth⟩ =
      .ok (.ofNumber n, ⟨⟨size, some item, items⟩, depth⟩) := by
  have hends : Token.endsNumber false (b :: rest) = true := by
    have hstructural : ∀ b ∈ [Byte.comma, Byte.closeArray, Byte.closeObject],
        Byte.isStructural b = true :=
      List.forall_mem_cons.mpr
        ⟨rfl, List.forall_mem_cons.mpr ⟨rfl, List.forall_mem_singleton.mpr rfl⟩⟩
    rcases hb with hb | hb
    · simp [Token.endsNumber, hb]
    · simp [Token.endsNumber, hstructural b hb]
  have hholds : Token.HoldsAtom r.form false ⟨offset, text, b :: rest⟩ (.ofNumber n) :=
    Token.holdsAtom_number h hdenotes hends
  intro item
  have hhead := head_of_atom hholds.wellFormed.1
  have hwithin : Within (item :: items) ⟨size, some item, items⟩ :=
    ⟨fun _ hitem => Option.some.inj hitem ▸ List.mem_cons_self, fun _ => List.mem_cons_of_mem item⟩
  have hatom := parseAtom_sameOutcome (r := r) (T := fun _ => True)
    (fun _ _ _ _ => trivial) hwithin false item.token.head
  have hread : readAtom r.form false item.token.head ⟨size, some item, items⟩ =
      .ok (.ofNumber n) := hholds.read
  obtain ⟨v, hv, hspells⟩ := (hread ▸ hatom).exists_of_ok_right
  let s : State := ⟨⟨size, last, item :: items⟩, depth⟩
  have hparse : parseValue r (ahead + 1) false s =
      (parseAtom r false s.cursor.skip.byte s.skip.cursor).map fun v => (v, s.skip) :=
    parseValue_of_atom false hhead.1 hhead.2
  refine hparse.trans ?_
  change (parseAtom r false item.token.head ⟨size, some item, items⟩).map _ = _
  rw [hv, Live.eq_ofNumber hspells.contents]
  rfl

/-! ### Texts of containers -/

/-- A member as it is written: a key that spells a name, and the bytes of a value. -/
structure Member where
  key : Bytes
  name : Bytes
  bytes : Bytes
  value : Value

/-- The parts of a member spell what they should. -/
def Member.Spelled (depth : Nat) (m : Member) : Prop :=
  Key m.key m.name ∧ Padded depth m.bytes m.value

def Member.text (m : Member) : Bytes := m.key ++ Byte.colon :: m.bytes

def Member.row (m : Member) : Text × Value := (.owned m.name, m.value)

/-- The text of an array with given elements. -/
def arrayText (elements : List Bytes) : Bytes :=
  Byte.openArray :: [Byte.comma].intercalate elements ++ [Byte.closeArray]

/-- The text of an object with given members. -/
def objectText (members : List Member) : Bytes :=
  Byte.openObject :: [Byte.comma].intercalate (members.map Member.text) ++ [Byte.closeObject]

namespace Grammar

variable {depth : Nat}

theorem elements_intercalate (e : Bytes × Value) (es : List (Bytes × Value))
    (h : ∀ e' ∈ e :: es, Padded depth e'.1 e'.2) :
    Elements depth ([Byte.comma].intercalate ((e :: es).map (·.1))) ((e :: es).map (·.2)) := by
  induction es generalizing e with
  | nil => simpa using Elements.last (h e List.mem_cons_self)
  | cons e' es ih =>
    obtain ⟨he, hes⟩ := List.forall_mem_cons.mp h
    simpa using Elements.more he (ih e' hes)

theorem members_intercalate (m : Member) (ms : List Member)
    (h : ∀ m' ∈ m :: ms, m'.Spelled depth) :
    Members depth ([Byte.comma].intercalate ((m :: ms).map Member.text))
      ((m :: ms).map Member.row) := by
  induction ms generalizing m with
  | nil =>
    obtain ⟨hkey, hvalue⟩ := h m List.mem_cons_self
    simpa [Member.text, Member.row] using Members.last hkey hvalue
  | cons m' ms ih =>
    obtain ⟨⟨hkey, hvalue⟩, hms⟩ := List.forall_mem_cons.mp h
    simpa [Member.text, Member.row] using Members.more hkey hvalue (ih m' hms)

/-- A value with nothing around it is a document. -/
theorem Spells.document {bs : Bytes} {x : Value} (h : Spells depth bs x) : Document depth bs x := by
  have hblank : Blank [] := fun _ hb => absurd hb List.not_mem_nil
  have hdocument := Padded.mk hblank h hblank
  rwa [List.nil_append, List.append_nil] at hdocument

end Grammar

/-- Decoding gives a tree: that very tree with owned text, and one that is detached to it with
borrowed text. -/
def DecodesTo (requested : Nat) (text : Bytes) (x : Value) : Prop :=
  decode .owned requested text = .ok x ∧
    ∃ v, decode .borrowed requested text = .ok v ∧ v.detached = x

theorem decodesTo_of_document {requested : Nat} {text : Bytes} {x : Value}
    (h : Grammar.Document (effectiveDepth requested) text x) : DecodesTo requested text x := by
  have howned : decode .owned requested text = .ok x :=
    (decode_eq_ok_iff ..).mpr ((Decode.readInput_owned_eq_ok_iff ..).mpr h)
  refine ⟨howned, ?_⟩
  rw [decode_owned] at howned
  exact map_eq_ok_iff.mp howned

section

variable {requested depth : Nat} (hdepth : effectiveDepth requested = depth + 1)

include hdepth

theorem decodesTo_array {elements : List (Bytes × Value)} (hsome : elements ≠ [])
    (h : ∀ e ∈ elements, Padded depth e.1 e.2) :
    DecodesTo requested (arrayText (elements.map (·.1))) (.array (elements.map (·.2))) := by
  obtain ⟨e, es, rfl⟩ := List.exists_cons_of_ne_nil hsome
  apply decodesTo_of_document
  rw [hdepth]
  exact (Spells.array (elements_intercalate e es h)).document

theorem decodesTo_object {members : List Member} (hsome : members ≠ [])
    (h : ∀ m ∈ members, m.Spelled depth) :
    DecodesTo requested (objectText members)
      (.object (Rows.lastOfEach (members.map Member.row))) := by
  obtain ⟨m, ms, rfl⟩ := List.exists_cons_of_ne_nil hsome
  apply decodesTo_of_document
  rw [hdepth]
  exact (Spells.object (members_intercalate m ms h)).document

end

/-! ## §4 Layout has no say -/

/-- Texts with the same tokens are decoded as the same value, or they fail with one cause at one
place. A number that is decoded at the root, with or without whitespace around it, is read as the
same number by the walk inside a container, and is it among the elements and members of all arrays
and objects. -/
theorem decode_respaced :
    (∀ {input input' run run'}, Token.runFrom .between 0 input = .ok run →
      Token.runFrom .between 0 input' = .ok run' →
      run.tokens.map (·.text) = run'.tokens.map (·.text) → ∀ form requested,
      (∃ v, decode form requested input = .ok v ∧ decode form requested input' = .ok v) ∨
        ∃ e e', decode form requested input = .error e ∧
          decode form requested input' = .error e' ∧
          e.Alike run.tokens run'.tokens input.length input'.length e') ∧
    ∀ {input run t form requested n}, Token.runFrom .between 0 input = .ok run →
      run.tokens = [t] → decode form requested input = .ok (.ofNumber n) →
      (∀ r ahead depth size offset count last items b rest,
        Byte.isWhitespace b = true ∨ b ∈ [Byte.comma, Byte.closeArray, Byte.closeObject] →
        let item : Outline.Item := ⟨⟨offset, t.text, b :: rest⟩, count⟩
        Decode.parseValue r (ahead + 1) false ⟨⟨size, last, item :: items⟩, depth⟩ =
          .ok (.ofNumber n, ⟨⟨size, some item, items⟩, depth⟩)) ∧
      ∀ requested depth, effectiveDepth requested = depth + 1 →
        ∀ before after, Blank before → Blank after →
        (∀ es fs : List (Bytes × Value), (∀ e ∈ es ++ fs, Padded depth e.1 e.2) →
          DecodesTo requested
            (arrayText (es.map (·.1) ++ (before ++ (t.text ++ after)) :: fs.map (·.1)))
            (.array (es.map (·.2) ++ .ofNumber n :: fs.map (·.2)))) ∧
        ∀ ms ns : List Member, (∀ m ∈ ms ++ ns, m.Spelled depth) →
          ∀ key name, Key key name →
          let m : Member := ⟨key, name, before ++ (t.text ++ after), .ofNumber n⟩
          DecodesTo requested (objectText (ms ++ m :: ns))
            (.object (Rows.lastOfEach ((ms ++ m :: ns).map Member.row))) := by
  constructor
  · intro input input' run run' hrun hrun' htexts form requested
    exact decode_alike (Token.splits_of_runFrom hrun) (Token.splits_of_runFrom hrun') htexts form
      requested
  · intro input run t form requested n hrun htoken hdecode
    have hsplits : Splits 0 input [t] := htoken ▸ Token.splits_of_runFrom hrun
    obtain ⟨l, hnumeral, hdenotes⟩ := numeral_of_decode hsplits hdecode
    refine ⟨fun r ahead depth size offset count last items b rest hb => ?_,
      fun requested depth hdepth before after hbefore hafter => ?_⟩
    · exact Decode.parseValue_numeral hnumeral hdenotes r ahead depth size offset count last items
        rest hb
    · have hnumber : Padded depth (before ++ (t.text ++ after)) (.ofNumber n) :=
        .mk hbefore (.number hnumeral hdenotes) hafter
      refine ⟨fun es fs hes => ?_, fun ms ns hms key name hkey => ?_⟩
      · have hsome : es ++ (before ++ (t.text ++ after), .ofNumber n) :: fs ≠ [] :=
          List.append_ne_nil_of_right_ne_nil _ (List.cons_ne_nil _ _)
        have harray := decodesTo_array hdepth hsome
        rw [List.map_append, List.map_append] at harray
        refine harray (List.forall_mem_append.mpr ⟨fun e he => hes e (by simp [he]),
          List.forall_mem_cons.mpr ⟨hnumber, fun e he => hes e (by simp [he])⟩⟩)
      · exact decodesTo_object hdepth (by simp) (List.forall_mem_append.mpr
          ⟨fun m hm => hms m (by simp [hm]),
            List.forall_mem_cons.mpr ⟨⟨hkey, hnumber⟩, fun m hm => hms m (by simp [hm])⟩⟩)

/-- An array with a bad escape. -/
def tightInput : Bytes := Bytes.ofAscii "[1,\"\\q\"]"

/-- The same array with whitespace between its tokens. -/
def looseInput : Bytes := Bytes.ofAscii " [ 1\n,\"\\q\"] "

/-- Both layouts of the array fail alike, and a negative zero is moved into an array. -/
theorem decode_respaced_escape :
    (∃ (e e' : ParseError) (run run' : Token.Run), decode .owned 1 tightInput = .error e ∧
      decode .owned 1 looseInput = .error e' ∧ e.cause = .invalidEscape ∧
      e.Alike run.tokens run'.tokens tightInput.length looseInput.length e') ∧
    DecodesTo 1 (arrayText [Bytes.ofAscii "true", Bytes.ofAscii " -0 "])
      (.array [.bool true, .i64 0]) := by
  constructor
  · have hscan : Token.scan tightInput = .ok
        [⟨0, Bytes.ofAscii "[", tightInput.drop 1⟩, ⟨1, Bytes.ofAscii "1", tightInput.drop 2⟩,
          ⟨2, Bytes.ofAscii ",", tightInput.drop 3⟩,
          ⟨3, Bytes.ofAscii "\"\\q\"", tightInput.drop 7⟩, ⟨7, Bytes.ofAscii "]", []⟩] := by
      decide +kernel
    have hscan' : Token.scan looseInput = .ok
        [⟨1, Bytes.ofAscii "[", looseInput.drop 2⟩, ⟨3, Bytes.ofAscii "1", looseInput.drop 4⟩,
          ⟨5, Bytes.ofAscii ",", looseInput.drop 6⟩,
          ⟨6, Bytes.ofAscii "\"\\q\"", looseInput.drop 10⟩,
          ⟨10, Bytes.ofAscii "]", looseInput.drop 11⟩] := by
      decide +kernel
    have hrun := Token.runFrom_splits ((Token.scan_eq_ok_iff _ _).mp hscan).1
    have hrun' := Token.runFrom_splits ((Token.scan_eq_ok_iff _ _).mp hscan').1
    have hcause : (match decode .owned 1 tightInput with
        | .ok _ => none
        | .error e => some e.cause) = some .invalidEscape := by decide +kernel
    rcases decode_respaced.1 hrun hrun' rfl .owned 1 with ⟨v, h, -⟩ | ⟨e, e', h, h', halike⟩
    · rw [h] at hcause
      cases hcause
    · rw [h] at hcause
      exact ⟨e, e', _, _, h, h', Option.some.inj hcause, halike⟩
  · have hscan : Token.scan (Bytes.ofAscii " -0") = .ok [⟨1, Bytes.ofAscii "-0", []⟩] := by
      decide +kernel
    have hrun := Token.runFrom_splits ((Token.scan_eq_ok_iff _ _).mp hscan).1
    have hnumber : decode .owned 1 (Bytes.ofAscii " -0") = .ok (.ofNumber (.i64 0)) := by rfl
    obtain ⟨-, hcontainers⟩ := decode_respaced.2 hrun rfl hnumber
    have hspace : Blank [0x20] := List.forall_mem_singleton.mpr rfl
    have hblank : Blank [] := fun _ hb => absurd hb List.not_mem_nil
    have htrue : Padded 0 (Bytes.ofAscii "true") (.bool true) := .mk hblank .true hblank
    exact (hcontainers 1 0 rfl [0x20] [0x20] hspace hspace).1
      [(Bytes.ofAscii "true", .bool true)] [] (List.forall_mem_singleton.mpr htrue)

end JsonTree
