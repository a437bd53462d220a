import JsonTree.Proofs.Decode.Detach
import JsonTree.Proofs.Decode.Tokens

/-!
# Decoding and the grammar

Four passes share the checking of a text: tokens, outline, contents and depth. Together they accept
exactly the documents of the grammar, and give the tree that the grammar denotes. In one direction
the bytes that a readable tree of tokens covers are put together to a derivation; in the other, a
derivation is turned into a tree of tokens that is read as its value.

## Main statements

- `Node.spells`: a readable tree covers bytes that spell its value.
- `exists_covers`: bytes that spell a value are covered by a tree that is read as it.
- `Grammar.Document.eq`: the grammar gives a text one value at most.
- `decode_eq_ok_iff_document`: decoding follows the grammar, in both representations.
-/

namespace JsonTree

open Grammar

/-! ## §1 From trees to derivations -/

/-- A division begins with the single byte of a structural token. -/
theorem splits_structural_inv {offset : Nat} {bs : Bytes} {t : Token} {ts : List Token}
    (h : Splits offset bs (t :: ts)) {b : UInt8} (hhead : t.head = b)
    (hb : Byte.isStructural b = true) :
    ∃ gap rest next, bs = gap ++ b :: rest ∧ Blank gap ∧ Splits next rest ts := by
  obtain ⟨gap, next, rfl, hgap, hpiece, hrest⟩ := splits_inv h
  refine ⟨gap, t.rest, next, ?_, hgap, hrest⟩
  rw [text_of_structural hpiece (hhead ▸ hb), hhead]
  rfl

/-- A division begins with a key. -/
theorem splits_key_inv {offset : Nat} {bs text : Bytes} {key colon : Token} {ts : List Token}
    (h : Splits offset bs (key :: colon :: ts)) (hkey : key.head = Byte.quote)
    (hcolon : colon.head = Byte.colon) {t : Text} (hread : key.string = .ok t)
    (htext : t.bytes = text) :
    ∃ bs' rest next, bs = bs' ++ Byte.colon :: rest ∧ Key bs' text ∧ Splits next rest ts := by
  obtain ⟨gap, next, rfl, hgap, hpiece, hrest⟩ := splits_inv h
  obtain ⟨body, hbody, hwell⟩ := text_of_quote hpiece hkey
  obtain ⟨after, rest, next, hsplit, hafter, hrest⟩ := splits_structural_inv hrest hcolon rfl
  rw [Token.string_of_quoted hbody] at hread
  have hcontents := Text.contents_of_read hwell hread
  rw [htext] at hcontents
  refine ⟨_, rest, next, ?_, .mk hgap hcontents hafter, hrest⟩
  rw [hbody, hsplit]
  simp only [List.append_assoc]

mutual

/-- A readable tree covers bytes that spell its value. -/
theorem Node.spells (v : Node) (hv : v.WellFormed) {offset : Nat} {bs : Bytes} {ts : List Token}
    (hsplit : Splits offset bs (v.tokens ++ ts)) {levels : Nat} {root : Bool} {x : Value}
    (hread : v.read .owned levels root = .ok x) :
    ∃ gap text rest next, bs = gap ++ (text ++ rest) ∧ Blank gap ∧ Spells levels text x ∧
      Splits next rest ts := by
  cases v with
  | atom t =>
    obtain ⟨gap, next, rfl, hgap, hpiece, hrest⟩ := splits_inv hsplit
    rw [Node.read_atom] at hread
    exact ⟨gap, t.text, t.rest, next, rfl, hgap, Token.spells_of_readAtom hpiece hv.1 hv.2 hread,
      hrest⟩
  | emptyArray opening closing =>
    obtain ⟨gap, rest, next, rfl, hgap, hrest⟩ := splits_structural_inv hsplit hv.1 rfl
    obtain ⟨blank, rest, next, rfl, hblank, hrest⟩ := splits_structural_inv hrest hv.2 rfl
    cases levels with
    | zero => cases hread
    | succ levels =>
      cases hread
      refine ⟨gap, _, rest, next, ?_, hgap, .emptyArray hblank, hrest⟩
      simp
  | emptyObject opening closing =>
    obtain ⟨gap, rest, next, rfl, hgap, hrest⟩ := splits_structural_inv hsplit hv.1 rfl
    obtain ⟨blank, rest, next, rfl, hblank, hrest⟩ := splits_structural_inv hrest hv.2 rfl
    cases levels with
    | zero => cases hread
    | succ levels =>
      cases hread
      refine ⟨gap, _, rest, next, ?_, hgap, .emptyObject hblank, hrest⟩
      simp
  | array opening elements =>
    obtain ⟨gap, rest, next, rfl, hgap, hrest⟩ := splits_structural_inv hsplit hv.1 rfl
    cases levels with
    | zero => cases hread
    | succ levels =>
      obtain ⟨xs, hxs, rfl⟩ := map_eq_ok_iff.mp hread
      obtain ⟨inner, rest, next, rfl, helements, hrest⟩ := elements.spells hv.2 hrest hxs
      refine ⟨gap, _, rest, next, ?_, hgap, .array helements, hrest⟩
      simp
  | object opening members =>
    obtain ⟨gap, rest, next, rfl, hgap, hrest⟩ := splits_structural_inv hsplit hv.1 rfl
    cases levels with
    | zero => cases hread
    | succ levels =>
      obtain ⟨rows, hrows, rfl⟩ := map_eq_ok_iff.mp hread
      obtain ⟨inner, rest, next, rfl, hmembers, hrest⟩ := members.spells hv.2 hrest hrows
      rw [Object.collect_rows]
      refine ⟨gap, _, rest, next, ?_, hgap, .object hmembers, hrest⟩
      simp

theorem Nodes.spells (elements : Nodes) (hv : elements.WellFormed) {offset : Nat} {bs : Bytes}
    {ts : List Token} (hsplit : Splits offset bs (elements.tokens ++ ts)) {levels : Nat}
    {xs : List Value} (hread : elements.read .owned levels = .ok xs) :
    ∃ text rest next, bs = text ++ Byte.closeArray :: rest ∧ Elements levels text xs ∧
      Splits next rest ts := by
  cases elements with
  | last v closing =>
    rw [Nodes.tokens_last_append] at hsplit
    obtain ⟨x, hx, hread⟩ := bind_eq_ok_iff.mp hread
    cases hread
    obtain ⟨gap, text, rest, next, rfl, hgap, hspells, hrest⟩ := v.spells hv.1 hsplit hx
    obtain ⟨after, rest, next, rfl, hafter, hrest⟩ := splits_structural_inv hrest hv.2 rfl
    refine ⟨_, rest, next, ?_, .last (.mk hgap hspells hafter), hrest⟩
    simp
  | more v comma elements =>
    rw [Nodes.tokens_more_append] at hsplit
    obtain ⟨x, hx, hread⟩ := bind_eq_ok_iff.mp hread
    -- The whitespace around an element comes from the gaps of the tokens before and after it.
    obtain ⟨xs', hxs, hread⟩ := bind_eq_ok_iff.mp hread
    cases hread
    obtain ⟨gap, text, rest, next, rfl, hgap, hspells, hrest⟩ := v.spells hv.1 hsplit hx
    obtain ⟨after, rest, next, rfl, hafter, hrest⟩ := splits_structural_inv hrest hv.2.1 rfl
    obtain ⟨inner, rest, next, rfl, helements, hrest⟩ := elements.spells hv.2.2 hrest hxs
    refine ⟨_, rest, next, ?_, .more (.mk hgap hspells hafter) helements, hrest⟩
    simp

theorem Fields.spells (members : Fields) (hv : members.WellFormed) {offset : Nat} {bs : Bytes}
    {ts : List Token} (hsplit : Splits offset bs (members.tokens ++ ts)) {levels : Nat}
    {rows : List (Text × Value)} (hread : members.read .owned levels = .ok rows) :
    ∃ text rest next, bs = text ++ Byte.closeObject :: rest ∧ Members levels text rows ∧
      Splits next rest ts := by
  cases members with
  | last key colon v closing =>
    obtain ⟨hkey, hcolon, hv, hclosing⟩ := hv
    rw [Fields.tokens_last_append] at hsplit
    obtain ⟨t, ht, hread⟩ := bind_eq_ok_iff.mp hread
    obtain ⟨x, hx, hread⟩ := bind_eq_ok_iff.mp hread
    cases hread
    obtain ⟨name, rest, next, rfl, hname, hrest⟩ := splits_key_inv hsplit hkey hcolon ht rfl
    obtain ⟨gap, text, rest, next, rfl, hgap, hspells, hrest⟩ := v.spells hv hrest hx
    obtain ⟨after, rest, next, rfl, hafter, hrest⟩ := splits_structural_inv hrest hclosing rfl
    refine ⟨_, rest, next, ?_, .last hname (.mk hgap hspells hafter), hrest⟩
    simp
  | more key colon v comma members =>
    obtain ⟨hkey, hcolon, hv, hcomma, hmembers⟩ := hv
    rw [Fields.tokens_more_append] at hsplit
    obtain ⟨t, ht, hread⟩ := bind_eq_ok_iff.mp hread
    obtain ⟨x, hx, hread⟩ := bind_eq_ok_iff.mp hread
    obtain ⟨rows', hrows, hread⟩ := bind_eq_ok_iff.mp hread
    cases hread
    obtain ⟨name, rest, next, rfl, hname, hrest⟩ := splits_key_inv hsplit hkey hcolon ht rfl
    obtain ⟨gap, text, rest, next, rfl, hgap, hspells, hrest⟩ := v.spells hv hrest hx
    obtain ⟨after, rest, next, rfl, hafter, hrest⟩ := splits_structural_inv hrest hcomma rfl
    obtain ⟨inner, rest, next, rfl, hinner, hrest⟩ := members.spells hmembers hrest hrows
    refine ⟨_, rest, next, ?_, .more hname (.mk hgap hspells hafter) hinner, hrest⟩
    simp

end

/-! ## §2 From derivations to trees -/

/-- A tree that covers given bytes in front of others, and is read as a value. -/
structure Covers (v : Node) (offset : Nat) (bs rest : Bytes) (levels : Nat) (root : Bool)
    (x : Value) : Prop where
  wellFormed : v.WellFormed
  splits : ∀ ts, Splits (offset + bs.length) rest ts → Splits offset (bs ++ rest) (v.tokens ++ ts)
  read : v.read .owned levels root = .ok x

/-- The same for elements and the bracket after them. -/
structure CoversElements (elements : Nodes) (offset : Nat) (bs rest : Bytes) (levels : Nat)
    (xs : List Value) : Prop where
  wellFormed : elements.WellFormed
  splits : ∀ ts, Splits (offset + bs.length + 1) rest ts →
    Splits offset (bs ++ Byte.closeArray :: rest) (elements.tokens ++ ts)
  read : elements.read .owned levels = .ok xs

/-- The same for members and the brace after them. -/
structure CoversMembers (members : Fields) (offset : Nat) (bs rest : Bytes) (levels : Nat)
    (rows : List (Text × Value)) : Prop where
  wellFormed : members.WellFormed
  splits : ∀ ts, Splits (offset + bs.length + 1) rest ts →
    Splits offset (bs ++ Byte.closeObject :: rest) (members.tokens ++ ts)
  read : members.read .owned levels = .ok rows

variable {offset levels : Nat} {bs rest : Bytes} {root : Bool} {x : Value}

/-- Offsets that are equal give the same divisions. -/
theorem splits_at {offset' : Nat} {ts : List Token} (h : Splits offset rest ts)
    (heq : offset = offset') : Splits offset' rest ts := heq ▸ h

theorem Token.HoldsAtom.covers {levels : Nat}
    (h : Token.HoldsAtom .owned root ⟨offset, bs, rest⟩ x) :
    Covers (.atom ⟨offset, bs, rest⟩) offset bs rest levels root x := by
  refine ⟨h.wellFormed, fun ts hts => splits_piece h.piece hts, ?_⟩
  rw [Node.read_atom]
  exact h.read

/-- Whitespace may stand around what is covered. -/
theorem Covers.pad {v : Node} {before after : Bytes} (hbefore : Blank before) (hafter : Blank after)
    (h : Covers v (offset + before.length) bs (after ++ rest) levels root x) :
    Covers v offset (before ++ (bs ++ after)) rest levels root x := by
  refine ⟨h.wellFormed, fun ts hts => ?_, h.read⟩
  rw [List.append_assoc, List.append_assoc]
  apply splits_append hbefore
  apply h.splits
  apply splits_append hafter
  apply splits_at hts
  simp only [List.length_append]
  omega

/-- Whitespace in front of what ends a number ends it too. -/
theorem endsNumber_append {after : Bytes} (hafter : Blank after)
    (h : Token.endsNumber root rest = true) : Token.endsNumber root (after ++ rest) = true := by
  cases after with
  | nil => exact h
  | cons b after =>
    have hb : Byte.isWhitespace b = true := hafter b List.mem_cons_self
    simp [Token.endsNumber, hb]

/-! ### Containers -/

/-- An opening bracket in front of what stands between it and its closing bracket. -/
theorem splits_opening {opening closing : UInt8} {ts : List Token}
    (hopening : Byte.isStructural opening = true)
    (h : Splits (offset + 1) (bs ++ closing :: rest) ts) :
    Splits offset (opening :: bs ++ [closing] ++ rest)
      (⟨offset, [opening], bs ++ closing :: rest⟩ :: ts) := by
  have hsplit : opening :: bs ++ [closing] ++ rest = opening :: (bs ++ closing :: rest) := by simp
  rw [hsplit]
  exact splits_structural hopening h

theorem add_length_bracketed (offset : Nat) (opening closing : UInt8) (bs : Bytes) :
    offset + (opening :: bs ++ [closing]).length = offset + 1 + bs.length + 1 := by
  simp only [List.length_append, List.length_cons, List.length_nil]
  omega

theorem covers_emptyArray {blank : Bytes} (hblank : Blank blank) :
    ∃ v, Covers v offset (Byte.openArray :: blank ++ [Byte.closeArray]) rest (levels + 1) root
      (.array []) := by
  refine ⟨.emptyArray ⟨offset, [Byte.openArray], blank ++ Byte.closeArray :: rest⟩
    ⟨offset + 1 + blank.length, [Byte.closeArray], rest⟩, ⟨rfl, rfl⟩, fun ts hts => ?_, rfl⟩
  apply splits_opening rfl
  apply splits_append hblank
  apply splits_structural rfl
  rwa [add_length_bracketed] at hts

theorem covers_emptyObject {blank : Bytes} (hblank : Blank blank) :
    ∃ v, Covers v offset (Byte.openObject :: blank ++ [Byte.closeObject]) rest (levels + 1) root
      (.object []) := by
  refine ⟨.emptyObject ⟨offset, [Byte.openObject], blank ++ Byte.closeObject :: rest⟩
    ⟨offset + 1 + blank.length, [Byte.closeObject], rest⟩, ⟨rfl, rfl⟩, fun ts hts => ?_, rfl⟩
  apply splits_opening rfl
  apply splits_append hblank
  apply splits_structural rfl
  rwa [add_length_bracketed] at hts

theorem CoversElements.covers {elements : Nodes} {xs : List Value}
    (h : CoversElements elements (offset + 1) bs rest levels xs) :
    ∃ v, Covers v offset (Byte.openArray :: bs ++ [Byte.closeArray]) rest (levels + 1) root
      (.array xs) := by
  refine ⟨.array ⟨offset, [Byte.openArray], bs ++ Byte.closeArray :: rest⟩ elements,
    ⟨rfl, h.wellFormed⟩, fun ts hts => ?_, map_eq_ok_iff.mpr ⟨xs, h.read, rfl⟩⟩
  apply splits_opening rfl
  apply h.splits
  rwa [add_length_bracketed] at hts

theorem CoversMembers.covers {members : Fields} {rows : List (Text × Value)}
    (h : CoversMembers members (offset + 1) bs rest levels rows) :
    ∃ v, Covers v offset (Byte.openObject :: bs ++ [Byte.closeObject]) rest (levels + 1) root
      (.object (Rows.lastOfEach rows)) := by
  refine ⟨.object ⟨offset, [Byte.openObject], bs ++ Byte.closeObject :: rest⟩ members,
    ⟨rfl, h.wellFormed⟩, fun ts hts => ?_, map_eq_ok_iff.mpr ⟨rows, h.read, ?_⟩⟩
  · apply splits_opening rfl
    apply h.splits
    rwa [add_length_bracketed] at hts
  · rw [Object.collect_rows]

/-! ### Elements -/

theorem Covers.last {v : Node} (h : Covers v offset bs (Byte.closeArray :: rest) levels false x) :
    ∃ elements, CoversElements elements offset bs rest levels [x] := by
  refine ⟨.last v ⟨offset + bs.length, [Byte.closeArray], rest⟩, ⟨h.wellFormed, rfl⟩,
    fun ts hts => ?_, bind_eq_ok_iff.mpr ⟨_, h.read, rfl⟩⟩
  rw [Nodes.tokens_last_append]
  exact h.splits _ (splits_structural rfl hts)

theorem Covers.more {v : Node} {others : Bytes} {elements : Nodes} {xs : List Value}
    (h : Covers v offset bs (Byte.comma :: (others ++ Byte.closeArray :: rest)) levels false x)
    (helements : CoversElements elements (offset + bs.length + 1) others rest levels xs) :
    ∃ elements, CoversElements elements offset (bs ++ Byte.comma :: others) rest levels
      (x :: xs) := by
  refine ⟨.more v ⟨offset + bs.length, [Byte.comma], others ++ Byte.closeArray :: rest⟩ elements,
    ⟨h.wellFormed, rfl, helements.wellFormed⟩, fun ts hts => ?_,
    bind_eq_ok_iff.mpr ⟨_, h.read, bind_eq_ok_iff.mpr ⟨_, helements.read, rfl⟩⟩⟩
  have hsplit : bs ++ Byte.comma :: others ++ Byte.closeArray :: rest =
      bs ++ Byte.comma :: (others ++ Byte.closeArray :: rest) := by simp
  rw [Nodes.tokens_more_append, hsplit]
  apply h.splits
  apply splits_structural rfl
  apply helements.splits
  apply splits_at hts
  simp only [List.length_append, List.length_cons]
  omega

/-! ### Members -/

/-- The tokens of a key and its colon, in front of given bytes. -/
structure CoversKey (key colon : Token) (offset : Nat) (bs rest text : Bytes) : Prop where
  keyHead : key.head = Byte.quote
  colonHead : colon.head = Byte.colon
  splits : ∀ ts, Splits (offset + bs.length + 1) rest ts →
    Splits offset (bs ++ Byte.colon :: rest) (key :: colon :: ts)
  read : ∃ t, key.string = .ok t ∧ Representation.owned.keep t = .owned text

/-- A key of the grammar is covered by its token and the colon. -/
theorem exists_coversKey {text : Bytes} (h : Key bs text) (offset : Nat) (rest : Bytes) :
    ∃ key colon, CoversKey key colon offset bs rest text := by
  obtain ⟨hbefore, hcontents, hafter⟩ := h
  rename_i before contents after
  obtain ⟨t, ht, htext⟩ := Text.read_contents hcontents
    (offset + before.length + 1) (after ++ Byte.colon :: rest)
  refine ⟨⟨offset + before.length, quoted contents, after ++ Byte.colon :: rest⟩,
    ⟨offset + before.length + (quoted contents).length + after.length, [Byte.colon], rest⟩,
    rfl, rfl, fun ts hts => ?_, ⟨t, ?_, congrArg Held.owned htext⟩⟩
  · have hsplit : before ++ (quoted contents ++ after) ++ Byte.colon :: rest =
        before ++ (quoted contents ++ (after ++ Byte.colon :: rest)) := by simp
    rw [hsplit]
    apply Splits.token hbefore (.string (body_of_contents hcontents))
    apply splits_append hafter
    apply splits_structural rfl
    apply splits_at hts
    simp only [List.length_append]
    omega
  · rw [Token.string_of_quoted rfl]
    exact ht

theorem CoversKey.last {key colon : Token} {name text : Bytes} {v : Node}
    (hkey : CoversKey key colon offset name (bs ++ Byte.closeObject :: rest) text)
    (h : Covers v (offset + name.length + 1) bs (Byte.closeObject :: rest) levels false x) :
    ∃ members, CoversMembers members offset (name ++ Byte.colon :: bs) rest levels
      [(.owned text, x)] := by
  obtain ⟨t, ht, hkeep⟩ := hkey.read
  let closing : Token := ⟨offset + name.length + 1 + bs.length, [Byte.closeObject], rest⟩
  refine ⟨.last key colon v closing, ⟨hkey.keyHead, hkey.colonHead, h.wellFormed, rfl⟩,
    fun ts hts => ?_, ?_⟩
  · have hsplit : name ++ Byte.colon :: bs ++ Byte.closeObject :: rest =
        name ++ Byte.colon :: (bs ++ Byte.closeObject :: rest) := by simp
    rw [Fields.tokens_last_append, hsplit]
    apply hkey.splits
    apply h.splits
    apply splits_structural rfl
    apply splits_at hts
    simp only [List.length_append, List.length_cons]
    omega
  · rw [← hkeep]
    exact bind_eq_ok_iff.mpr ⟨t, ht, bind_eq_ok_iff.mpr ⟨x, h.read, rfl⟩⟩

theorem CoversKey.more {key colon : Token} {name others text : Bytes} {v : Node} {members : Fields}
    {rows : List (Text × Value)}
    (hkey : CoversKey key colon offset name
      (bs ++ Byte.comma :: (others ++ Byte.closeObject :: rest)) text)
    (h : Covers v (offset + name.length + 1) bs
      (Byte.comma :: (others ++ Byte.closeObject :: rest)) levels false x)
    (hmembers : CoversMembers members (offset + name.length + 1 + bs.length + 1) others rest levels
      rows) :
    ∃ members, CoversMembers members offset (name ++ Byte.colon :: (bs ++ Byte.comma :: others))
      rest levels ((.owned text, x) :: rows) := by
  obtain ⟨t, ht, hkeep⟩ := hkey.read
  let comma : Token := ⟨offset + name.length + 1 + bs.length, [Byte.comma],
    others ++ Byte.closeObject :: rest⟩
  refine ⟨.more key colon v comma members,
    ⟨hkey.keyHead, hkey.colonHead, h.wellFormed, rfl, hmembers.wellFormed⟩, fun ts hts => ?_, ?_⟩
  · have hsplit : name ++ Byte.colon :: (bs ++ Byte.comma :: others) ++ Byte.closeObject :: rest =
        name ++ Byte.colon :: (bs ++ Byte.comma :: (others ++ Byte.closeObject :: rest)) := by simp
    rw [Fields.tokens_more_append, hsplit]
    apply hkey.splits
    apply h.splits
    apply splits_structural rfl
    apply hmembers.splits
    apply splits_at hts
    simp only [List.length_append, List.length_cons]
    omega
  · rw [← hkeep]
    exact bind_eq_ok_iff.mpr ⟨t, ht, bind_eq_ok_iff.mpr ⟨x, h.read,
      bind_eq_ok_iff.mpr ⟨rows, hmembers.read, rfl⟩⟩⟩

/-! ### Derivations -/

mutual

/-- Bytes that spell a value are covered by a tree that is read as it. -/
theorem exists_covers {depth : Nat} {bs : Bytes} {x : Value} (h : Spells depth bs x)
    (offset : Nat) (rest : Bytes) (root : Bool) (hends : Token.endsNumber root rest = true) :
    ∃ v, Covers v offset bs rest depth root x := by
  -- A word may be ended by more bytes than a number, so what ends a number is asked for here.
  have hdelimited := delimited_of_endsNumber hends
  cases h with
  | null => exact ⟨_, (Token.holdsAtom_word (by simp [Token.wordValues]) hdelimited).covers⟩
  | true => exact ⟨_, (Token.holdsAtom_word (by simp [Token.wordValues]) hdelimited).covers⟩
  | false => exact ⟨_, (Token.holdsAtom_word (by simp [Token.wordValues]) hdelimited).covers⟩
  | number hnumeral hdenotes =>
    exact ⟨_, (Token.holdsAtom_number hnumeral hdenotes hends).covers⟩
  | string hcontents => exact ⟨_, (Token.holdsAtom_string hcontents).covers⟩
  | emptyArray hblank => exact covers_emptyArray hblank
  | emptyObject hblank => exact covers_emptyObject hblank
  | array helements =>
    obtain ⟨elements, hcovers⟩ := exists_coversElements helements (offset + 1) rest
    exact hcovers.covers
  | object hmembers =>
    obtain ⟨members, hcovers⟩ := exists_coversMembers hmembers (offset + 1) rest
    exact hcovers.covers
termination_by 3 * bs.length
decreasing_by all_goals simp only [List.length_append, List.length_cons]; omega

theorem exists_covers_padded {depth : Nat} {bs : Bytes} {x : Value} (h : Padded depth bs x)
    (offset : Nat) (rest : Bytes) (root : Bool) (hends : Token.endsNumber root rest = true) :
    ∃ v, Covers v offset bs rest depth root x := by
  cases h with
  | mk hbefore hspells hafter =>
    obtain ⟨v, hv⟩ := exists_covers hspells _ _ root (endsNumber_append hafter hends)
    exact ⟨v, hv.pad hbefore hafter⟩
termination_by 3 * bs.length + 1
decreasing_by simp only [List.length_append]; omega

theorem exists_coversElements {depth : Nat} {bs : Bytes} {xs : List Value}
    (h : Elements depth bs xs) (offset : Nat) (rest : Bytes) :
    ∃ elements, CoversElements elements offset bs rest depth xs := by
  cases h with
  | last hpadded =>
    obtain ⟨v, hv⟩ := exists_covers_padded hpadded offset (Byte.closeArray :: rest) false rfl
    exact hv.last
  | @more _ _ others _ _ hpadded helements =>
    obtain ⟨elements, hcovers⟩ := exists_coversElements helements _ rest
    obtain ⟨v, hv⟩ := exists_covers_padded hpadded offset
      (Byte.comma :: (others ++ Byte.closeArray :: rest)) false rfl
    exact hv.more hcovers
termination_by 3 * bs.length + 2
decreasing_by all_goals grind [List.length_append]

theorem exists_coversMembers {depth : Nat} {bs : Bytes} {rows : List (Text × Value)}
    (h : Members depth bs rows) (offset : Nat) (rest : Bytes) :
    ∃ members, CoversMembers members offset bs rest depth rows := by
  cases h with
  | last hname hpadded =>
    obtain ⟨key, colon, hkey⟩ := exists_coversKey hname offset _
    obtain ⟨v, hv⟩ := exists_covers_padded hpadded _ (Byte.closeObject :: rest) false rfl
    exact hkey.last hv
  | @more _ _ _ others _ _ _ hname hpadded hmembers =>
    obtain ⟨members, hcovers⟩ := exists_coversMembers hmembers _ rest
    obtain ⟨key, colon, hkey⟩ := exists_coversKey hname offset _
    obtain ⟨v, hv⟩ := exists_covers_padded hpadded _
      (Byte.comma :: (others ++ Byte.closeObject :: rest)) false rfl
    exact hkey.more hv hcovers
termination_by 3 * bs.length + 2
decreasing_by all_goals simp only [List.length_append, List.length_cons]; omega

end

/-! ## §3 Whole texts -/

/-- What is read from a text with owned text is what the grammar derives. -/
theorem Decode.readInput_owned_eq_ok_iff (requested : Nat) (text : Bytes) (x : Value) :
    readInput .owned requested text = .ok x ↔
      Grammar.Document (effectiveDepth requested) text x := by
  rw [readInput_eq_ok_iff]
  constructor
  · rintro ⟨v, hv, hscan, hread⟩
    have hsplit : Splits 0 text (v.tokens ++ []) := by
      rw [List.append_nil]
      exact ((Token.scan_eq_ok_iff ..).mp hscan).1
    -- No token is left, so the rest is whitespace.
    obtain ⟨gap, inner, rest, next, rfl, hgap, hspells, hrest⟩ := v.spells hv hsplit hread
    exact .mk hgap hspells (blank_of_splits_nil hrest)
  · intro h
    -- The end of the input ends a number, also where it is the whole text.
    obtain ⟨v, hv⟩ := exists_covers_padded h 0 [] true rfl
    have hsplit := hv.splits [] (.blank (by simp [Blank]))
    rw [List.append_nil, List.append_nil] at hsplit
    obtain ⟨first, others, hfirst, -⟩ := v.exists_first hv.wellFormed
    refine ⟨v, hv.wellFormed, (Token.scan_eq_ok_iff ..).mpr ⟨hsplit, ?_⟩, hv.read⟩
    rw [hfirst]
    exact List.cons_ne_nil first others

theorem decode_eq_ok_iff (form : Representation) (requested : Nat) (text : Bytes) (x : Value) :
    decode form requested text = .ok x ↔ Decode.readInput form requested text = .ok x := by
  rw [decode_eq_readInput]
  cases Decode.readInput form requested text <;> simp [Except.mapError]

/-- The grammar gives a text one value at most. -/
theorem Grammar.Document.eq {requested : Nat} {text : Bytes} {x y : Value}
    (hx : Grammar.Document (effectiveDepth requested) text x)
    (hy : Grammar.Document (effectiveDepth requested) text y) : x = y := by
  rw [← Decode.readInput_owned_eq_ok_iff] at hx hy
  rw [hx] at hy
  exact Except.ok.inj hy

/-- Decoding accepts exactly the documents of the grammar, and gives the tree that the grammar
denotes: that very tree with owned text, and that tree after detaching with borrowed text. -/
theorem decode_eq_ok_iff_document (requested : Nat) (text : Bytes) (x : Value) :
    (decode .owned requested text = .ok x ↔ Grammar.Document (effectiveDepth requested) text x) ∧
      ((∃ v, decode .borrowed requested text = .ok v ∧ v.detached = x) ↔
        Grammar.Document (effectiveDepth requested) text x) := by
  have howned : decode .owned requested text = .ok x ↔
      Grammar.Document (effectiveDepth requested) text x := by
    rw [decode_eq_ok_iff, Decode.readInput_owned_eq_ok_iff]
  refine ⟨howned, ?_⟩
  rw [← howned, decode_owned]
  exact map_eq_ok_iff.symm

end JsonTree
