import JsonTree.Proofs.Decode.Levels
import JsonTree.Proofs.Token.Tree

/-!
# The walk over the outline

The cursor knows nothing of trees: it passes over tokens one by one and trusts the counts. Over the
items of a tree it stays in step with the tree. A value is read from exactly its own tokens, and the
outcome, value or fault, is the one that the tree gives when its tokens are read in their order.

## Main definitions

- `Token.readAtom`: the value of a single token.
- `Node.read`: the outcome of reading a tree.

## Main statements

- `Node.readValue_items`: the walk over the items of a tree reads the tree and stands behind it.
- `Decode.readInput_of_scan`: the outcome of reading a text is that of reading its tree.
-/

namespace JsonTree

open Outline (Item)

/-! ## §1 Reading trees -/

/-- The value of a token that is a value by itself. -/
def Token.readAtom (form : Representation) (root : Bool) (t : Token) : Except Fault Value :=
  if t.head == Byte.minus then .ofNumber <$> t.number root true
  else if Byte.isDigit t.head then .ofNumber <$> t.number root false
  else if t.head == Byte.quote then (fun text => .string (form.keep text)) <$> t.string
  else if t.head == 0x6E then .ok .null
  else if t.head == 0x74 then .ok (.bool true)
  else if t.head == 0x66 then .ok (.bool false)
  else .error ⟨.unexpectedCharacter, t.offset⟩

mutual

/-- The outcome of reading a tree in the order of its tokens, where up to `levels` containers may be
opened inside one another. -/
def Node.read (form : Representation) : (levels : Nat) → (root : Bool) → Node → Except Fault Value
  | _, root, .atom t => t.readAtom form root
  | 0, _, .emptyArray opening _ => .error ⟨.depthExceeded, opening.offset⟩
  | _ + 1, _, .emptyArray _ _ => .ok (.array [])
  | 0, _, .array opening _ => .error ⟨.depthExceeded, opening.offset⟩
  | levels + 1, _, .array _ elements => .array <$> elements.read form levels
  | 0, _, .emptyObject opening _ => .error ⟨.depthExceeded, opening.offset⟩
  | _ + 1, _, .emptyObject _ _ => .ok (.object [])
  | 0, _, .object opening _ => .error ⟨.depthExceeded, opening.offset⟩
  | levels + 1, _, .object _ members =>
    (fun rows => .object (Object.collect rows).rows) <$> members.read form levels

def Nodes.read (form : Representation) (levels : Nat) : Nodes → Except Fault (List Value)
  | .last v _ => do
    let x ← v.read form levels false
    .ok [x]
  | .more v _ elements => do
    let x ← v.read form levels false
    let xs ← elements.read form levels
    .ok (x :: xs)

def Fields.read (form : Representation) (levels : Nat) :
    Fields → Except Fault (List (Text × Value))
  | .last key _ v _ => do
    let text ← key.string
    let x ← v.read form levels false
    .ok [(form.keep text, x)]
  | .more key _ v _ members => do
    let text ← key.string
    let x ← v.read form levels false
    let rows ← members.read form levels
    .ok ((form.keep text, x) :: rows)

end

/-- An atom is read alike at every depth. -/
theorem Node.read_atom (form : Representation) (levels : Nat) (root : Bool) (t : Token) :
    (Node.atom t).read form levels root = t.readAtom form root := by
  cases levels <;> rfl

/-! ## §2 The cursor on trees -/

mutual

/-- The last token of a tree. -/
def Node.finish : Node → Item
  | .atom t => ⟨t, 0⟩
  | .emptyArray _ closing => ⟨closing, 0⟩
  | .array _ elements => elements.finish
  | .emptyObject _ closing => ⟨closing, 0⟩
  | .object _ members => members.finish

def Nodes.finish : Nodes → Item
  | .last _ closing => ⟨closing, 0⟩
  | .more _ _ elements => elements.finish

def Fields.finish : Fields → Item
  | .last _ _ _ closing => ⟨closing, 0⟩
  | .more _ _ _ _ members => members.finish

end

theorem Nodes.count_ne_zero (elements : Nodes) : elements.count ≠ 0 := by
  cases elements <;> exact Nat.succ_ne_zero _

theorem Fields.count_ne_zero (members : Fields) : members.count ≠ 0 := by
  cases members <;> exact Nat.succ_ne_zero _

namespace Decode

variable {form : Representation} {levels size : Nat} {root : Bool} {last : Option Item}
  {rest : List Item} {t : Token} {n : Nat} {c : Cursor}

/-- At an opening bracket the walk looks at the limit, then at the count. -/
theorem readValue_of_array (h : c.skip.byte = Byte.openArray) :
    readValue form levels root c =
      match levels with
      | 0 => .error (c.skip.fault .depthExceeded)
      | levels + 1 =>
        if c.skip.count = 0 then .ok (.array [], c.skip.skip)
        else (readElements (readValue form levels false) c.skip.count c.skip).map
          fun (elements, c) => (.array elements, c) := by
  have hnext : c.next = (Byte.openArray, c.skip) := by rw [← h]; rfl
  unfold readValue
  simp only [hnext, beq_self_eq_true, if_true]
  cases levels with
  | zero => rfl
  | succ levels =>
    by_cases hcount : c.skip.count = 0
    · simp only [hcount, if_true]
    · simp only [hcount, if_false]
      cases readElements (readValue form levels false) c.skip.count c.skip <;> rfl

/-- At an opening brace the walk does the same, and keeps the last member of each key. -/
theorem readValue_of_object (h : c.skip.byte = Byte.openObject) :
    readValue form levels root c =
      match levels with
      | 0 => .error (c.skip.fault .depthExceeded)
      | levels + 1 =>
        if c.skip.count = 0 then .ok (.object [], c.skip.skip)
        else (readMembers form (readValue form levels false) c.skip.count c.skip).map
          fun (rows, c) => (.object (Object.collect rows).rows, c) := by
  have hnext : c.next = (Byte.openObject, c.skip) := by rw [← h]; rfl
  have hother : (Byte.openObject == Byte.openArray) = false := rfl
  unfold readValue
  simp only [hnext, hother, Bool.false_eq_true, if_false, beq_self_eq_true, if_true]
  cases levels with
  | zero => rfl
  | succ levels =>
    by_cases hcount : c.skip.count = 0
    · simp only [hcount, if_true]
    · simp only [hcount, if_false]
      cases readMembers form (readValue form levels false) c.skip.count c.skip <;> rfl

/-- At any other byte it reads an atom, at every depth alike. -/
theorem readValue_of_atom (harray : c.skip.byte ≠ Byte.openArray)
    (hobject : c.skip.byte ≠ Byte.openObject) :
    readValue form levels root c =
      (readAtom form root c.skip.byte c.skip).map fun v => (v, c.skip) := by
  have hnext : c.next = (c.skip.byte, c.skip) := rfl
  unfold readValue
  simp only [hnext, beq_eq_false_iff_ne.mpr harray, beq_eq_false_iff_ne.mpr hobject,
    Bool.false_eq_true, if_false]
  cases readAtom form root c.skip.byte c.skip <;> rfl

/-- The first byte of an atom is not structural, so it is not taken for a bracket. -/
theorem head_of_atom (h : Byte.isStructural t.head = false) :
    t.head ≠ Byte.openArray ∧ t.head ≠ Byte.openObject :=
  ⟨ne_of_structural h rfl, ne_of_structural h rfl⟩

theorem readValue_atom (h : Byte.isStructural t.head = false) :
    readValue form levels root ⟨size, last, ⟨t, n⟩ :: rest⟩ =
      (t.readAtom form root).map fun v => (v, ⟨size, some ⟨t, n⟩, rest⟩) :=
  readValue_of_atom (head_of_atom h).1 (head_of_atom h).2

theorem readValue_array (h : t.head = Byte.openArray) :
    readValue form levels root ⟨size, last, ⟨t, n⟩ :: rest⟩ =
      match levels with
      | 0 => .error ⟨.depthExceeded, t.offset⟩
      | levels + 1 =>
        if n = 0 then .ok (.array [], Cursor.skip ⟨size, some ⟨t, n⟩, rest⟩)
        else (readElements (readValue form levels false) n ⟨size, some ⟨t, n⟩, rest⟩).map
          fun (elements, c) => (.array elements, c) :=
  readValue_of_array h

theorem readValue_object (h : t.head = Byte.openObject) :
    readValue form levels root ⟨size, last, ⟨t, n⟩ :: rest⟩ =
      match levels with
      | 0 => .error ⟨.depthExceeded, t.offset⟩
      | levels + 1 =>
        if n = 0 then .ok (.object [], Cursor.skip ⟨size, some ⟨t, n⟩, rest⟩)
        else (readMembers form (readValue form levels false) n ⟨size, some ⟨t, n⟩, rest⟩).map
          fun (rows, c) => (.object (Object.collect rows).rows, c) :=
  readValue_of_object h

theorem readElements_succ (readElement : Reader Value) (c : Cursor) :
    readElements readElement (n + 1) c =
      readElement c >>= fun (v, c) =>
        readElements readElement n c.skip >>= fun (elements, c) => .ok (v :: elements, c) := rfl

theorem readMembers_succ (readMember : Reader Value) (key colon : Token) (items : List Item) :
    readMembers form readMember (n + 1) ⟨size, last, ⟨key, 0⟩ :: ⟨colon, 0⟩ :: items⟩ =
      key.string >>= fun text =>
        readMember ⟨size, some ⟨colon, 0⟩, items⟩ >>= fun (v, c) =>
          readMembers form readMember n c.skip >>= fun (rows, c) =>
            .ok ((form.keep text, v) :: rows, c) := rfl

end Decode

section

variable (form : Representation) (size : Nat)

open Decode

mutual

/-- The walk over the items of a tree reads the tree and stands behind it. -/
theorem Node.readValue_items (v : Node) (h : v.WellFormed) (levels : Nat) (root : Bool)
    (last : Option Item) (rest : List Item) :
    readValue form levels root ⟨size, last, v.items ++ rest⟩ =
      (v.read form levels root).map fun x => (x, ⟨size, some v.finish, rest⟩) := by
  cases v with
  | atom t =>
    rw [Node.items, List.singleton_append, readValue_atom h.1, Node.read_atom]
    rfl
  | emptyArray opening closing =>
    rw [Node.items, List.cons_append, readValue_array h.1]
    cases levels <;> rfl
  | emptyObject opening closing =>
    rw [Node.items, List.cons_append, readValue_object h.1]
    cases levels <;> rfl
  | array opening elements =>
    rw [Node.items, List.cons_append, readValue_array h.1]
    cases levels with
    | zero => rfl
    | succ levels =>
      -- The count is that of the tree, so it never stands for an empty array here.
      simp only [elements.count_ne_zero, if_false, Node.read]
      rw [elements.readElements_items h.2]
      cases elements.read form levels <;> rfl
  | object opening members =>
    rw [Node.items, List.cons_append, readValue_object h.1]
    cases levels with
    | zero => rfl
    | succ levels =>
      simp only [members.count_ne_zero, if_false, Node.read]
      rw [members.readMembers_items h.2]
      cases members.read form levels <;> rfl

theorem Nodes.readElements_items (elements : Nodes) (h : elements.WellFormed) (levels : Nat)
    (last : Option Item) (rest : List Item) :
    readElements (readValue form levels false) elements.count
        ⟨size, last, elements.items ++ rest⟩ =
      (elements.read form levels).map fun xs => (xs, ⟨size, some elements.finish, rest⟩) := by
  cases elements with
  | last v closing =>
    rw [Nodes.items, Nodes.count, readElements_succ, List.append_assoc, v.readValue_items h.1,
      Nodes.read]
    -- After the last element the walk passes over the closing bracket.
    cases v.read form levels false <;> rfl
  | more v comma elements =>
    -- The walk passes over the comma unread.
    have hskip : Cursor.skip ⟨size, some v.finish, ⟨comma, 0⟩ :: (elements.items ++ rest)⟩ =
        ⟨size, some ⟨comma, 0⟩, elements.items ++ rest⟩ := rfl
    rw [Nodes.items, Nodes.count, readElements_succ, List.append_assoc, List.cons_append,
      v.readValue_items h.1, Nodes.read]
    cases v.read form levels false with
    | error fault => rfl
    | ok x =>
      simp only [Except.map, bind, Except.bind]
      rw [hskip, elements.readElements_items h.2.2]
      cases elements.read form levels <;> rfl

theorem Fields.readMembers_items (members : Fields) (h : members.WellFormed) (levels : Nat)
    (last : Option Item) (rest : List Item) :
    readMembers form (readValue form levels false) members.count
        ⟨size, last, members.items ++ rest⟩ =
      (members.read form levels).map fun rows => (rows, ⟨size, some members.finish, rest⟩) := by
  cases members with
  | last key colon v closing =>
    rw [Fields.items, Fields.count, List.cons_append, List.cons_append, readMembers_succ,
      Fields.read]
    cases key.string with
    | error fault => rfl
    | ok text =>
      simp only [bind, Except.bind]
      rw [List.append_assoc, v.readValue_items h.2.2.1]
      cases v.read form levels false <;> rfl
  | more key colon v comma members =>
    have hskip : Cursor.skip ⟨size, some v.finish, ⟨comma, 0⟩ :: (members.items ++ rest)⟩ =
        ⟨size, some ⟨comma, 0⟩, members.items ++ rest⟩ := rfl
    rw [Fields.items, Fields.count, List.cons_append, List.cons_append, readMembers_succ,
      Fields.read]
    cases key.string with
    | error fault => rfl
    | ok text =>
      simp only [bind, Except.bind]
      rw [List.append_assoc, List.cons_append, v.readValue_items h.2.2.1]
      cases v.read form levels false with
      | error fault => rfl
      | ok x =>
        simp only [Except.map]
        rw [hskip, members.readMembers_items h.2.2.2.2]
        cases members.read form levels <;> rfl

end

end

/-! ## §3 Whole texts -/

/-- The cursor starts before the items of a tree whose tokens the text divides into. -/
theorem Cursor.ofInput_eq_ok_iff (input : Bytes) (c : Cursor) :
    ofInput input = .ok c ↔
      ∃ v : Node, v.WellFormed ∧ Token.scan input = .ok v.tokens ∧
        c = ⟨input.length, none, v.items⟩ := by
  constructor
  · intro h
    obtain ⟨ts, hscan, h⟩ := bind_eq_ok_iff.mp h
    obtain ⟨items, houtline, h⟩ := bind_eq_ok_iff.mp h
    cases h
    obtain ⟨v, hv, rfl, rfl⟩ := (Token.outline_eq_ok_iff _ _ _).mp houtline
    exact ⟨v, hv, hscan, rfl⟩
  · rintro ⟨v, hv, hscan, rfl⟩
    have houtline := (Token.outline_eq_ok_iff input.length _ _).mpr ⟨v, hv, rfl, rfl⟩
    exact bind_eq_ok_iff.mpr ⟨_, hscan, bind_eq_ok_iff.mpr ⟨_, houtline, rfl⟩⟩

namespace Decode

variable (form : Representation) (requested : Nat) {input : Bytes}

/-- The outcome of reading a text is that of reading its tree. -/
theorem readInput_of_scan {v : Node} (hv : v.WellFormed)
    (hscan : Token.scan input = .ok v.tokens) :
    readInput form requested input = v.read form (effectiveDepth requested) true := by
  have hcursor := (Cursor.ofInput_eq_ok_iff input _).mpr ⟨v, hv, hscan, rfl⟩
  have hwalk := v.readValue_items form input.length hv (effectiveDepth requested) true none []
  rw [List.append_nil] at hwalk
  unfold readInput
  simp only [hcursor, bind, Except.bind, hwalk]
  cases v.read form (effectiveDepth requested) true <;> rfl

/-- A text is read if it divides into the tokens of a readable tree. -/
theorem readInput_eq_ok_iff (input : Bytes) (x : Value) :
    readInput form requested input = .ok x ↔
      ∃ v : Node, v.WellFormed ∧ Token.scan input = .ok v.tokens ∧
        v.read form (effectiveDepth requested) true = .ok x := by
  constructor
  · intro h
    obtain ⟨c, hc, -⟩ := bind_eq_ok_iff.mp h
    obtain ⟨v, hv, hscan, -⟩ := (Cursor.ofInput_eq_ok_iff input c).mp hc
    exact ⟨v, hv, hscan, by rw [← readInput_of_scan form requested hv hscan, h]⟩
  · rintro ⟨v, hv, hscan, hread⟩
    rw [readInput_of_scan form requested hv hscan, hread]

end Decode

end JsonTree
