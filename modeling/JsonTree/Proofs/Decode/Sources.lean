import JsonTree.Proofs.Decode.Borrowed
import JsonTree.Proofs.Value.Changes

/-!
# Where texts come from

Every text of a tree comes from one string token, and the bytes between the quotes of this token
tell all about it: whether it is borrowed, and what it says. The values of a decoded tree stand
where the tokens of the input put them. Of the members with one key the last one is stored, with its
own key: equal keys may be written in different ways, and which of them is stored can be seen.

## Main definitions

- `Text.TakenFrom`: a text, by the bytes between the quotes of a token.
- `KeepsLast`: the last row of each key, in their order.
- `Node.Gives`: a tree of values, by the tokens that its texts are taken from.

## Main statements

- `Token.exists_takenFrom`: what is read of a token is taken from it.
- `decode_borrowed_gives`: decoding with borrowed text takes every text from its token.
-/

namespace JsonTree

open Grammar

/-! ## §1 Texts -/

/-- A text that is taken from a string token of an input, with the bytes between its quotes. -/
structure Text.TakenFrom (input : Bytes) (t : Token) (body : Bytes) (text : Text) : Prop where
  placed : input.drop t.offset = quoted body ++ t.rest
  delimited : Body body
  isBorrowed_iff : text.isBorrowed = true ↔ Byte.backslash ∉ body
  bytes_of_borrowed : text.isBorrowed = true → text.bytes = body
  contents_of_owned : text.isBorrowed = false → Contents body text.bytes

/-- A body is plain exactly if it has no backslash. -/
theorem Body.plain_iff {body : Bytes} (h : Body body) : Plain body ↔ Byte.backslash ∉ body := by
  constructor
  · intro hplain hmem
    have hbackslash := hplain _ hmem
    cases hbackslash
  · intro hnone
    rcases h.plain_or with hplain | ⟨run, rest, -, rfl⟩
    · exact hplain
    · exact absurd (by simp) hnone

/-- What is read of a token is taken from it. -/
theorem Token.exists_takenFrom {input : Bytes} {t : Token} {text : Text}
    (hpiece : Piece t.text t.rest) (hplaced : input.drop t.offset = t.tail)
    (hquote : t.head = Byte.quote) (hread : t.string = .ok text) :
    ∃ body, text.TakenFrom input t body := by
  obtain ⟨body, htext, hbody⟩ := text_of_quote hpiece hquote
  have hplaced' : input.drop t.offset = quoted body ++ t.rest := by rw [hplaced, tail, htext]
  rw [string_of_quoted htext] at hread
  have hcontents := Text.contents_of_read hbody hread
  refine ⟨body, ?_⟩
  rcases Text.read_body hbody (t.offset + 1) t.rest with ⟨hplain, hborrowed⟩ | ⟨hplain, howned⟩
  · cases hread.symm.trans hborrowed
    exact ⟨hplaced', hbody, iff_of_true rfl (hbody.plain_iff.mp hplain), fun _ => rfl,
      fun _ => hcontents⟩
  · obtain ⟨p, -, rfl⟩ := map_eq_ok_iff.mp (howned.symm.trans hread)
    have hescaped : ¬ Byte.backslash ∉ body := fun h => hplain (hbody.plain_iff.mpr h)
    exact ⟨hplaced', hbody, iff_of_false Bool.false_ne_true hescaped,
      fun h => absurd h Bool.false_ne_true, fun _ => hcontents⟩

/-! ## §2 Trees -/

/-- Stored rows are the last ones of their keys among the written ones, in their order. -/
structure KeepsLast (written stored : Rows Bytes Value) : Prop where
  mem_iff : ∀ row, row ∈ stored ↔
    ∃ before after, written = before ++ row :: after ∧ row.1.bytes ∉ Rows.keys after
  sublist : stored.Sublist written
  nodup : (Rows.keys stored).Nodup

mutual

/-- A tree of values whose texts are taken from the tokens of a tree. -/
inductive Node.Gives (input : Bytes) : Node → Value → Prop where
  | string {t : Token} {body : Bytes} {text : Text} :
      text.TakenFrom input t body → Node.Gives input (.atom t) (.string text)
  | null {t : Token} : t.head ≠ Byte.quote → Node.Gives input (.atom t) .null
  | bool {t : Token} (b : Bool) : t.head ≠ Byte.quote → Node.Gives input (.atom t) (.bool b)
  | number {t : Token} (n : Number) :
      t.head ≠ Byte.quote → Node.Gives input (.atom t) (.ofNumber n)
  | emptyArray {opening closing : Token} :
      Node.Gives input (.emptyArray opening closing) (.array [])
  | array {opening : Token} {elements : Nodes} {xs : List Value} :
      Nodes.Gives input elements xs → Node.Gives input (.array opening elements) (.array xs)
  | emptyObject {opening closing : Token} :
      Node.Gives input (.emptyObject opening closing) (.object [])
  | object {opening : Token} {members : Fields} {written stored : Rows Bytes Value} :
      Fields.Gives input members written → KeepsLast written stored →
      Node.Gives input (.object opening members) (.object stored)

/-- The elements of an array, one for each value of the tree. -/
inductive Nodes.Gives (input : Bytes) : Nodes → List Value → Prop where
  | last {v : Node} {closing : Token} {x : Value} :
      Node.Gives input v x → Nodes.Gives input (.last v closing) [x]
  | more {v : Node} {comma : Token} {elements : Nodes} {x : Value} {xs : List Value} :
      Node.Gives input v x → Nodes.Gives input elements xs →
      Nodes.Gives input (.more v comma elements) (x :: xs)

/-- The rows of an object as they are written, one for each member, with the key of its token. -/
inductive Fields.Gives (input : Bytes) : Fields → Rows Bytes Value → Prop where
  | last {key colon closing : Token} {v : Node} {body : Bytes} {text : Text} {x : Value} :
      text.TakenFrom input key body → Node.Gives input v x →
      Fields.Gives input (.last key colon v closing) [(text, x)]
  | more {key colon comma : Token} {v : Node} {members : Fields} {body : Bytes} {text : Text}
      {x : Value} {rows : Rows Bytes Value} :
      text.TakenFrom input key body → Node.Gives input v x → Fields.Gives input members rows →
      Fields.Gives input (.more key colon v comma members) ((text, x) :: rows)

end

/-- The rows of a collected object are the last ones of their keys, however many there are. -/
theorem keepsLast_collect (written : Rows Bytes Value) :
    KeepsLast written (Object.collect written).rows := by
  rw [Object.collect_rows]
  exact ⟨Rows.mem_lastOfEach_iff written, Rows.lastOfEach_sublist written,
    Rows.keys_lastOfEach_nodup written⟩

/-- Tokens that lie in an input. -/
def LieIn (input : Bytes) (ts : List Token) : Prop :=
  ∀ t ∈ ts, Piece t.text t.rest ∧ input.drop t.offset = t.tail

variable {input : Bytes}

/-- An atom that is read is a string taken from its token, or has no text. -/
theorem Token.gives_of_readAtom {t : Token} {root : Bool} {x : Value} (ht : LieIn input [t])
    (h : t.readAtom .borrowed root = .ok x) : (Node.atom t).Gives input x := by
  obtain ⟨hpiece, hplaced⟩ := ht t List.mem_cons_self
  have hdigits : Byte.isDigit t.head = true → t.head ≠ Byte.quote := by
    intro hdigit hquote
    rw [hquote] at hdigit
    cases hdigit
  rcases readAtom_cases h with ⟨hminus, n, -, rfl⟩ | ⟨hdigit, n, -, rfl⟩ |
    ⟨hquote, text, htext, rfl⟩ | ⟨hnull, rfl⟩ | ⟨htrue, rfl⟩ | ⟨hfalse, rfl⟩
  · exact .number n (by rw [hminus]; decide)
  · exact .number n (hdigits hdigit)
  · obtain ⟨body, hbody⟩ := exists_takenFrom hpiece hplaced hquote htext
    exact .string hbody
  · exact .null (by rw [hnull]; decide)
  · exact .bool true (by rw [htrue]; decide)
  · exact .bool false (by rw [hfalse]; decide)

mutual

/-- A tree that is read with borrowed text gives the values of its tokens. -/
theorem Node.gives_of_read (v : Node) (hv : v.WellFormed) (hts : LieIn input v.tokens)
    {levels : Nat} {root : Bool} {x : Value} (h : v.read .borrowed levels root = .ok x) :
    v.Gives input x := by
  cases v with
  | atom t =>
    rw [Node.read_atom] at h
    exact Token.gives_of_readAtom hts h
  | emptyArray opening closing =>
    cases levels with
    | zero => cases h
    | succ levels =>
      cases h
      exact .emptyArray
  | emptyObject opening closing =>
    cases levels with
    | zero => cases h
    | succ levels =>
      cases h
      exact .emptyObject
  | array opening elements =>
    cases levels with
    | zero => cases h
    | succ levels =>
      obtain ⟨xs, hxs, rfl⟩ := map_eq_ok_iff.mp h
      obtain ⟨-, hts⟩ := List.forall_mem_cons.mp hts
      exact .array (elements.gives_of_read hv.2 hts hxs)
  | object opening members =>
    cases levels with
    | zero => cases h
    | succ levels =>
      obtain ⟨rows, hrows, rfl⟩ := map_eq_ok_iff.mp h
      obtain ⟨-, hts⟩ := List.forall_mem_cons.mp hts
      -- All members are read, and repeated keys are dropped from what was read.
      exact .object (members.gives_of_read hv.2 hts hrows) (keepsLast_collect rows)

theorem Nodes.gives_of_read (elements : Nodes) (hv : elements.WellFormed)
    (hts : LieIn input elements.tokens) {levels : Nat} {xs : List Value}
    (h : elements.read .borrowed levels = .ok xs) : elements.Gives input xs := by
  cases elements with
  | last v closing =>
    rw [Nodes.tokens_last] at hts
    obtain ⟨hvalue, -⟩ := List.forall_mem_append.mp hts
    obtain ⟨x, hx, h⟩ := bind_eq_ok_iff.mp h
    cases h
    exact .last (v.gives_of_read hv.1 hvalue hx)
  | more v comma elements =>
    rw [Nodes.tokens_more] at hts
    obtain ⟨hvalue, hrest⟩ := List.forall_mem_append.mp hts
    obtain ⟨-, hrest⟩ := List.forall_mem_cons.mp hrest
    obtain ⟨x, hx, h⟩ := bind_eq_ok_iff.mp h
    obtain ⟨xs, hxs, h⟩ := bind_eq_ok_iff.mp h
    cases h
    exact .more (v.gives_of_read hv.1 hvalue hx) (elements.gives_of_read hv.2.2 hrest hxs)

theorem Fields.gives_of_read (members : Fields) (hv : members.WellFormed)
    (hts : LieIn input members.tokens) {levels : Nat} {rows : List (Text × Value)}
    (h : members.read .borrowed levels = .ok rows) : members.Gives input rows := by
  cases members with
  | last key colon v closing =>
    rw [Fields.tokens_last] at hts
    obtain ⟨⟨hpiece, hplaced⟩, hts⟩ := List.forall_mem_cons.mp hts
    obtain ⟨-, hts⟩ := List.forall_mem_cons.mp hts
    obtain ⟨hvalue, -⟩ := List.forall_mem_append.mp hts
    obtain ⟨text, htext, h⟩ := bind_eq_ok_iff.mp h
    obtain ⟨x, hx, h⟩ := bind_eq_ok_iff.mp h
    cases h
    obtain ⟨body, hkey⟩ := Token.exists_takenFrom hpiece hplaced hv.1 htext
    exact .last hkey (v.gives_of_read hv.2.2.1 hvalue hx)
  | more key colon v comma members =>
    rw [Fields.tokens_more] at hts
    obtain ⟨⟨hpiece, hplaced⟩, hts⟩ := List.forall_mem_cons.mp hts
    obtain ⟨-, hts⟩ := List.forall_mem_cons.mp hts
    obtain ⟨hvalue, hrest⟩ := List.forall_mem_append.mp hts
    obtain ⟨-, hrest⟩ := List.forall_mem_cons.mp hrest
    obtain ⟨text, htext, h⟩ := bind_eq_ok_iff.mp h
    obtain ⟨x, hx, h⟩ := bind_eq_ok_iff.mp h
    obtain ⟨rows, hrows, h⟩ := bind_eq_ok_iff.mp h
    cases h
    obtain ⟨body, hkey⟩ := Token.exists_takenFrom hpiece hplaced hv.1 htext
    exact .more hkey (v.gives_of_read hv.2.2.1 hvalue hx)
      (members.gives_of_read hv.2.2.2.2 hrest hrows)

end

/-! ## §3 Whole texts -/

/-- Decoding with borrowed text: the tokens of the input are those of a tree, and every string and
every stored key of the decoded value is taken from its token. -/
theorem decode_borrowed_gives {requested : Nat} {x : Value}
    (h : decode .borrowed requested input = .ok x) :
    ∃ v : Node, v.WellFormed ∧ Token.scan input = .ok v.tokens ∧ v.Gives input x := by
  rw [decode_eq_ok_iff, Decode.readInput_eq_ok_iff] at h
  obtain ⟨v, hv, hscan, hread⟩ := h
  have hsplits := ((Token.scan_eq_ok_iff input v.tokens).mp hscan).1
  exact ⟨v, hv, hscan, v.gives_of_read hv (fun t ht =>
    ⟨hsplits.pieces t ht, Token.drop_offset_of_scan hscan t ht⟩) hread⟩

/-- An object with two members of one key, which the second one writes with an escape. -/
def respelledInput : Bytes :=
  Bytes.ofAscii "\x7b\"a\":\"x\",\"\\u0061\":\"y\\n\"\x7d"

/-- The stored key is owned, although the first member could have lent one. -/
theorem decode_borrowed_gives_respelled :
    ∃ x, decode .borrowed 1 respelledInput = .ok x ∧
      x.asObject.map (fun o => o.rows.map Prod.fst) = some [Held.owned [0x61]] ∧
      (x.get? [0x61]).bind Value.asText = some [0x79, 0x0A] ∧
      ∃ v : Node, v.WellFormed ∧ Token.scan respelledInput = .ok v.tokens ∧
        v.Gives respelledInput x := by
  have hkeys : ((decode .borrowed 1 respelledInput).toOption.bind fun x =>
      x.asObject.map fun o => o.rows.map Prod.fst) = some [Held.owned [0x61]] := by decide +kernel
  have htext : ((decode .borrowed 1 respelledInput).toOption.bind fun x =>
      (x.get? [0x61]).bind Value.asText) = some [0x79, 0x0A] := by decide +kernel
  cases hdecode : decode .borrowed 1 respelledInput with
  | error e =>
    rw [hdecode] at hkeys
    cases hkeys
  | ok x =>
    rw [hdecode] at hkeys htext
    exact ⟨x, rfl, hkeys, htext, decode_borrowed_gives hdecode⟩

end JsonTree
