import JsonTree.Proofs.Result
import JsonTree.Token.Outline

/-!
# The trees behind token sequences

A token sequence that the outline accepts is the sequence of one tree: atoms, and containers whose
elements and members stand between their brackets with commas and colons in between. The pushdown
machine accepts exactly these sequences, and the counts it adds are those of the tree.

## Main definitions

- `Node`, with `Nodes` and `Fields`: the trees, each with all of its tokens.
- `Node.WellFormed`: each token plays a part that it may play.
- `Node.tokens`, `Node.items`: the tokens of a tree, without and with their counts.

## Main statements

- `Node.itemsFrom_append`: the machine passes over the tokens of a tree and adds its counts.
- `Outline.exists_node`: what the machine passes over before it has a value is a tree.
- `Token.outline_eq_ok_iff`: the outline accepts the token sequences of trees.
-/

namespace JsonTree

open Outline (Item)

/-! ## §1 Trees -/

mutual

/-- A value, by its tokens. -/
inductive Node where
  | atom (t : Token)
  | emptyArray (opening closing : Token)
  | array (opening : Token) (elements : Nodes)
  | emptyObject (opening closing : Token)
  | object (opening : Token) (members : Fields)

/-- The elements of an array, at least one, each with the token that ends it. -/
inductive Nodes where
  | last (v : Node) (closing : Token)
  | more (v : Node) (comma : Token) (elements : Nodes)

/-- The members of an object, at least one, each with the token that ends it. -/
inductive Fields where
  | last (key colon : Token) (v : Node) (closing : Token)
  | more (key colon : Token) (v : Node) (comma : Token) (members : Fields)

end

/-- How many elements there are. -/
def Nodes.count : Nodes → Nat
  | .last _ _ => 1
  | .more _ _ elements => elements.count + 1

/-- How many members there are. -/
def Fields.count : Fields → Nat
  | .last _ _ _ _ => 1
  | .more _ _ _ _ members => members.count + 1

mutual

/-- Each token plays a part that it may play. -/
def Node.WellFormed : Node → Prop
  | .atom t => Byte.isStructural t.head = false ∧ (t.beginsWord = true → t.isWord = true)
  | .emptyArray opening closing =>
    opening.head = Byte.openArray ∧ closing.head = Byte.closeArray
  | .array opening elements => opening.head = Byte.openArray ∧ elements.WellFormed
  | .emptyObject opening closing =>
    opening.head = Byte.openObject ∧ closing.head = Byte.closeObject
  | .object opening members => opening.head = Byte.openObject ∧ members.WellFormed

def Nodes.WellFormed : Nodes → Prop
  | .last v closing => v.WellFormed ∧ closing.head = Byte.closeArray
  | .more v comma elements => v.WellFormed ∧ comma.head = Byte.comma ∧ elements.WellFormed

def Fields.WellFormed : Fields → Prop
  | .last key colon v closing =>
    key.head = Byte.quote ∧ colon.head = Byte.colon ∧ v.WellFormed ∧
      closing.head = Byte.closeObject
  | .more key colon v comma members =>
    key.head = Byte.quote ∧ colon.head = Byte.colon ∧ v.WellFormed ∧
      comma.head = Byte.comma ∧ members.WellFormed

end

mutual

/-- The tokens of a tree with their counts. -/
def Node.items : Node → List Item
  | .atom t => [⟨t, 0⟩]
  | .emptyArray opening closing => [⟨opening, 0⟩, ⟨closing, 0⟩]
  | .array opening elements => ⟨opening, elements.count⟩ :: elements.items
  | .emptyObject opening closing => [⟨opening, 0⟩, ⟨closing, 0⟩]
  | .object opening members => ⟨opening, members.count⟩ :: members.items

def Nodes.items : Nodes → List Item
  | .last v closing => v.items ++ [⟨closing, 0⟩]
  | .more v comma elements => v.items ++ ⟨comma, 0⟩ :: elements.items

def Fields.items : Fields → List Item
  | .last key colon v closing => ⟨key, 0⟩ :: ⟨colon, 0⟩ :: (v.items ++ [⟨closing, 0⟩])
  | .more key colon v comma members =>
    ⟨key, 0⟩ :: ⟨colon, 0⟩ :: (v.items ++ ⟨comma, 0⟩ :: members.items)

end

/-- The tokens of a tree. -/
def Node.tokens (v : Node) : List Token := v.items.map (·.token)

/-- The tokens of some elements with what ends them. -/
def Nodes.tokens (elements : Nodes) : List Token := elements.items.map (·.token)

/-- The tokens of some members with what ends them. -/
def Fields.tokens (members : Fields) : List Token := members.items.map (·.token)

theorem Nodes.tokens_last_append (v : Node) (closing : Token) (ts : List Token) :
    (Nodes.last v closing).tokens ++ ts = v.tokens ++ closing :: ts := by
  simp [Nodes.tokens, Nodes.items, Node.tokens]

theorem Nodes.tokens_more_append (v : Node) (comma : Token) (elements : Nodes) (ts : List Token) :
    (Nodes.more v comma elements).tokens ++ ts = v.tokens ++ comma :: (elements.tokens ++ ts) := by
  simp [Nodes.tokens, Nodes.items, Node.tokens]

theorem Fields.tokens_last_append (key colon : Token) (v : Node) (closing : Token)
    (ts : List Token) :
    (Fields.last key colon v closing).tokens ++ ts =
      key :: colon :: (v.tokens ++ closing :: ts) := by
  simp [Fields.tokens, Fields.items, Node.tokens]

theorem Fields.tokens_more_append (key colon : Token) (v : Node) (comma : Token) (members : Fields)
    (ts : List Token) :
    (Fields.more key colon v comma members).tokens ++ ts =
      key :: colon :: (v.tokens ++ comma :: (members.tokens ++ ts)) := by
  simp [Fields.tokens, Fields.items, Node.tokens]

theorem Nodes.tokens_last (v : Node) (closing : Token) :
    (Nodes.last v closing).tokens = v.tokens ++ [closing] := by
  simpa using Nodes.tokens_last_append v closing []

theorem Nodes.tokens_more (v : Node) (comma : Token) (elements : Nodes) :
    (Nodes.more v comma elements).tokens = v.tokens ++ comma :: elements.tokens := by
  simpa using Nodes.tokens_more_append v comma elements []

theorem Fields.tokens_last (key colon : Token) (v : Node) (closing : Token) :
    (Fields.last key colon v closing).tokens = key :: colon :: (v.tokens ++ [closing]) := by
  simpa using Fields.tokens_last_append key colon v closing []

theorem Fields.tokens_more (key colon : Token) (v : Node) (comma : Token) (members : Fields) :
    (Fields.more key colon v comma members).tokens =
      key :: colon :: (v.tokens ++ comma :: members.tokens) := by
  simpa using Fields.tokens_more_append key colon v comma members []

/-! ## §2 The machine on trees -/

theorem ne_of_structural {b c : UInt8} (hb : Byte.isStructural b = false)
    (hc : Byte.isStructural c = true) : b ≠ c := by
  rintro rfl
  cases hb.symm.trans hc

namespace Outline

variable {size : Nat} {s next : State} {stack : List Bracket} {t : Token} {ts : List Token}
  {role : Role}

theorem itemsFrom_cons (h : s.advance t = .ok (role, next)) :
    itemsFrom size s (t :: ts) = (itemsFrom size next ts).map fun (items, ahead) =>
      (⟨t, (role.tally s.stack ahead).1⟩ :: items, (role.tally s.stack ahead).2) := by
  rw [itemsFrom, h]
  simp only []
  cases itemsFrom size next ts <;> rfl

/-- Where an array is still empty, a token that does not end it has to begin a value. -/
theorem advance_element (h : t.head ≠ Byte.closeArray) :
    State.advance ⟨.element, stack⟩ t = State.advance ⟨.value, stack⟩ t := by
  simp only [State.advance, beq_eq_false_iff_ne.mpr h, Bool.false_eq_true, if_false]

/-- Where an object is still empty, a token that does not end it has to be a key. -/
theorem advance_member (h : t.head ≠ Byte.closeObject) :
    State.advance ⟨.member, stack⟩ t = State.advance ⟨.key, stack⟩ t := by
  simp only [State.advance, beq_eq_false_iff_ne.mpr h, Bool.false_eq_true, if_false]

/-- A token that begins a value is not the end of an empty array. -/
theorem itemsFrom_element (h : t.head ≠ Byte.closeArray) :
    itemsFrom size ⟨.element, stack⟩ (t :: ts) = itemsFrom size ⟨.value, stack⟩ (t :: ts) := by
  rw [itemsFrom, itemsFrom, advance_element h]

/-- A token that is a key is not the end of an empty object. -/
theorem itemsFrom_member (h : t.head ≠ Byte.closeObject) :
    itemsFrom size ⟨.member, stack⟩ (t :: ts) = itemsFrom size ⟨.key, stack⟩ (t :: ts) := by
  rw [itemsFrom, itemsFrom, advance_member h]

theorem advance_openArray (h : t.head = Byte.openArray) :
    State.advance ⟨.value, stack⟩ t = .ok (.opening, ⟨.element, .array :: stack⟩) := by
  simp [State.advance, State.beginValue, h]

theorem advance_openObject (h : t.head = Byte.openObject) :
    State.advance ⟨.value, stack⟩ t = .ok (.opening, ⟨.member, .object :: stack⟩) := by
  have hother : Byte.openObject ≠ Byte.openArray := by decide
  simp [State.advance, State.beginValue, h, hother]

theorem advance_atom (h : Byte.isStructural t.head = false)
    (hword : t.beginsWord = true → t.isWord = true) :
    State.advance ⟨.value, stack⟩ t = .ok (.scalar, .afterValue stack) := by
  have harray : t.head ≠ Byte.openArray := ne_of_structural h rfl
  have hobject : t.head ≠ Byte.openObject := ne_of_structural h rfl
  have hfault : (t.beginsWord && !t.isWord) = false := by
    cases hbegins : t.beginsWord with
    | false => rfl
    | true => rw [hword hbegins]; rfl
  simp [State.advance, State.beginValue, harray, hobject, h, hfault]

theorem advance_closeEmptyArray (h : t.head = Byte.closeArray) :
    State.advance ⟨.element, .array :: stack⟩ t = .ok (.closing, .afterValue stack) := by
  simp [State.advance, State.close, h]

theorem advance_closeEmptyObject (h : t.head = Byte.closeObject) :
    State.advance ⟨.member, .object :: stack⟩ t = .ok (.closing, .afterValue stack) := by
  simp [State.advance, State.close, h]

theorem advance_key (h : t.head = Byte.quote) :
    State.advance ⟨.key, stack⟩ t = .ok (.key, ⟨.colon, stack⟩) := by
  simp [State.advance, State.beginMember, h]

theorem advance_colon (h : t.head = Byte.colon) :
    State.advance ⟨.colon, stack⟩ t = .ok (.mark, ⟨.value, stack⟩) := by
  simp [State.advance, h]

theorem advance_commaArray (h : t.head = Byte.comma) :
    State.advance (.afterValue (.array :: stack)) t = .ok (.mark, ⟨.value, .array :: stack⟩) := by
  simp [State.advance, State.afterValue, State.continueIn, h]

theorem advance_commaObject (h : t.head = Byte.comma) :
    State.advance (.afterValue (.object :: stack)) t = .ok (.mark, ⟨.key, .object :: stack⟩) := by
  simp [State.advance, State.afterValue, State.continueIn, h]

theorem advance_closeArray (h : t.head = Byte.closeArray) :
    State.advance (.afterValue (.array :: stack)) t = .ok (.closing, .afterValue stack) := by
  have hother : Byte.closeArray ≠ Byte.comma := by decide
  simp [State.advance, State.afterValue, State.continueIn, State.close, h, hother]

theorem advance_closeObject (h : t.head = Byte.closeObject) :
    State.advance (.afterValue (.object :: stack)) t = .ok (.closing, .afterValue stack) := by
  have hother : Byte.closeObject ≠ Byte.comma := by decide
  simp [State.advance, State.afterValue, State.continueIn, State.close, h, hother]

end Outline

/-- A tree begins with a token that does not close an array. -/
theorem Node.exists_first (v : Node) (h : v.WellFormed) :
    ∃ t ts, v.tokens = t :: ts ∧ t.head ≠ Byte.closeArray := by
  cases v with
  | atom t => exact ⟨t, [], rfl, ne_of_structural h.1 rfl⟩
  | emptyArray opening closing => exact ⟨opening, [closing], rfl, h.1 ▸ by decide⟩
  | array opening elements => exact ⟨opening, elements.tokens, rfl, h.1 ▸ by decide⟩
  | emptyObject opening closing => exact ⟨opening, [closing], rfl, h.1 ▸ by decide⟩
  | object opening members => exact ⟨opening, members.tokens, rfl, h.1 ▸ by decide⟩

theorem Nodes.exists_first (elements : Nodes) (h : elements.WellFormed) :
    ∃ t ts, elements.tokens = t :: ts ∧ t.head ≠ Byte.closeArray := by
  cases elements with
  | last v closing =>
    obtain ⟨t, ts, htokens, ht⟩ := v.exists_first h.1
    refine ⟨t, ts ++ [closing], ?_, ht⟩
    rw [tokens, items, List.map_append, ← Node.tokens, htokens]
    rfl
  | more v comma elements =>
    obtain ⟨t, ts, htokens, ht⟩ := v.exists_first h.1
    refine ⟨t, ts ++ comma :: elements.tokens, ?_, ht⟩
    rw [tokens, items, List.map_append, ← Node.tokens, htokens]
    rfl

theorem Fields.exists_first (members : Fields) (h : members.WellFormed) :
    ∃ t ts, members.tokens = t :: ts ∧ t.head ≠ Byte.closeObject := by
  cases members with
  | last key colon v closing => exact ⟨key, _, rfl, h.1 ▸ by decide⟩
  | more key colon v comma members => exact ⟨key, _, rfl, h.1 ▸ by decide⟩

section

variable (size : Nat)

open Outline

mutual

/-- The machine passes over the tokens of a value and adds the counts of the tree. -/
theorem Node.itemsFrom_append (v : Node) (h : v.WellFormed) (stack : List Bracket)
    (ts : List Token) :
    itemsFrom size ⟨.value, stack⟩ (v.tokens ++ ts) =
      (itemsFrom size (.afterValue stack) ts).map fun (items, ahead) =>
        (v.items ++ items, countElement stack ahead) := by
  cases v with
  | atom t =>
    have hcons : (Node.atom t).tokens ++ ts = t :: ts := rfl
    rw [hcons, itemsFrom_cons (advance_atom h.1 h.2)]
    cases itemsFrom size (.afterValue stack) ts <;> rfl
  | emptyArray opening closing =>
    have hcons : (Node.emptyArray opening closing).tokens ++ ts = opening :: closing :: ts := rfl
    rw [hcons, itemsFrom_cons (advance_openArray h.1),
      itemsFrom_cons (advance_closeEmptyArray h.2)]
    cases itemsFrom size (.afterValue stack) ts <;> rfl
  | emptyObject opening closing =>
    have hcons : (Node.emptyObject opening closing).tokens ++ ts = opening :: closing :: ts := rfl
    rw [hcons, itemsFrom_cons (advance_openObject h.1),
      itemsFrom_cons (advance_closeEmptyObject h.2)]
    cases itemsFrom size (.afterValue stack) ts <;> rfl
  | array opening elements =>
    have hcons : (Node.array opening elements).tokens ++ ts =
        opening :: (elements.tokens ++ ts) := rfl
    have hrun := elements.itemsFrom_append h.2 stack ts
    obtain ⟨t, ts', htokens, ht⟩ := elements.exists_first h.2
    rw [hcons, itemsFrom_cons (advance_openArray h.1)]
    -- The elements are passed over from a state that also allows the closing bracket.
    rw [htokens, List.cons_append] at hrun ⊢
    rw [itemsFrom_element ht, hrun]
    cases itemsFrom size (.afterValue stack) ts <;> rfl
  | object opening members =>
    have hcons : (Node.object opening members).tokens ++ ts =
        opening :: (members.tokens ++ ts) := rfl
    have hrun := members.itemsFrom_append h.2 stack ts
    obtain ⟨t, ts', htokens, ht⟩ := members.exists_first h.2
    rw [hcons, itemsFrom_cons (advance_openObject h.1)]
    -- The same with the closing brace.
    rw [htokens, List.cons_append] at hrun ⊢
    rw [itemsFrom_member ht, hrun]
    cases itemsFrom size (.afterValue stack) ts <;> rfl

theorem Nodes.itemsFrom_append (elements : Nodes) (h : elements.WellFormed)
    (stack : List Bracket) (ts : List Token) :
    itemsFrom size ⟨.value, .array :: stack⟩ (elements.tokens ++ ts) =
      (itemsFrom size (.afterValue stack) ts).map fun (items, ahead) =>
        (elements.items ++ items, elements.count :: ahead) := by
  cases elements with
  | last v closing =>
    rw [Nodes.tokens_last_append, v.itemsFrom_append h.1, itemsFrom_cons (advance_closeArray h.2)]
    cases itemsFrom size (.afterValue stack) ts with
    | error fault => rfl
    | ok found => simp [Except.map, Nodes.items, Nodes.count, Role.tally, countElement, bump]
  | more v comma elements =>
    rw [Nodes.tokens_more_append, v.itemsFrom_append h.1, itemsFrom_cons (advance_commaArray h.2.1),
      elements.itemsFrom_append h.2.2]
    cases itemsFrom size (.afterValue stack) ts with
    | error fault => rfl
    | ok found => simp [Except.map, Nodes.items, Nodes.count, Role.tally, countElement, bump]

theorem Fields.itemsFrom_append (members : Fields) (h : members.WellFormed)
    (stack : List Bracket) (ts : List Token) :
    itemsFrom size ⟨.key, .object :: stack⟩ (members.tokens ++ ts) =
      (itemsFrom size (.afterValue stack) ts).map fun (items, ahead) =>
        (members.items ++ items, members.count :: ahead) := by
  cases members with
  | last key colon v closing =>
    obtain ⟨hkey, hcolon, hv, hclosing⟩ := h
    rw [Fields.tokens_last_append, itemsFrom_cons (advance_key hkey),
      itemsFrom_cons (advance_colon hcolon), v.itemsFrom_append hv,
      itemsFrom_cons (advance_closeObject hclosing)]
    cases itemsFrom size (.afterValue stack) ts with
    | error fault => rfl
    | ok found => simp [Except.map, Fields.items, Fields.count, Role.tally, countElement, bump]
  | more key colon v comma members =>
    obtain ⟨hkey, hcolon, hv, hcomma, hmembers⟩ := h
    rw [Fields.tokens_more_append, itemsFrom_cons (advance_key hkey),
      itemsFrom_cons (advance_colon hcolon), v.itemsFrom_append hv,
      itemsFrom_cons (advance_commaObject hcomma), members.itemsFrom_append hmembers]
    cases itemsFrom size (.afterValue stack) ts with
    | error fault => rfl
    | ok found => simp [Except.map, Fields.items, Fields.count, Role.tally, countElement, bump]

end

end

/-! ## §3 The trees that the machine passes over -/

namespace Outline

/-- The machine gets to the end. -/
def Passes (size : Nat) (s : State) (ts : List Token) : Prop :=
  ∃ found, itemsFrom size s ts = .ok found

variable {size : Nat} {s next : State} {stack : List Bracket} {t : Token} {ts : List Token}
  {role : Role}

theorem passes_cons (h : Passes size s (t :: ts)) :
    ∃ role next, s.advance t = .ok (role, next) ∧ Passes size next ts := by
  obtain ⟨found, h⟩ := h
  rw [itemsFrom] at h
  split at h
  · cases h
  · rename_i role next hadvance
    obtain ⟨rest, hrest, -⟩ := bind_eq_ok_iff.mp h
    exact ⟨role, next, hadvance, rest, hrest⟩

/-- The tokens may run out only after the value is complete. -/
theorem expect_of_passes_nil (h : Passes size s []) : s.expect = .nothing := by
  obtain ⟨found, h⟩ := h
  obtain ⟨expect, stack⟩ := s
  rw [itemsFrom] at h
  cases expect with
  | nothing => rfl
  | _ =>
    rcases stack with _ | ⟨bracket, stack⟩
    · cases h
    · cases bracket <;> cases h

/-- What begins a value: a bracket, or an atom. -/
theorem advance_value_cases (h : State.advance ⟨.value, stack⟩ t = .ok (role, next)) :
    (t.head = Byte.openArray ∧ next = ⟨.element, .array :: stack⟩) ∨
      (t.head = Byte.openObject ∧ next = ⟨.member, .object :: stack⟩) ∨
      (Byte.isStructural t.head = false ∧ (t.beginsWord = true → t.isWord = true) ∧
        next = .afterValue stack) := by
  simp only [State.advance, State.beginValue] at h
  split at h
  · rename_i harray
    cases h
    exact .inl ⟨eq_of_beq harray, rfl⟩
  · split at h
    · rename_i hobject
      cases h
      exact .inr (.inl ⟨eq_of_beq hobject, rfl⟩)
    · split at h
      · cases h
      · split at h
        · cases h
        · rename_i hstructural hword
          cases h
          have hatom : t.beginsWord = true → t.isWord = true := by simpa using hword
          exact .inr (.inr ⟨by simpa using hstructural, hatom, rfl⟩)

/-- Between two values of a container a token is a comma, or the bracket that closes it. -/
theorem comma_or_closing {closing : UInt8} {cause : Cause} {comma close found : Role × State}
    (h : (if t.head == Byte.comma then .ok comma
      else if t.head == closing then .ok close else .error cause) = Except.ok found) :
    (t.head = Byte.comma ∧ comma = found) ∨ (t.head = closing ∧ close = found) := by
  split at h
  · rename_i hcomma
    exact .inl ⟨eq_of_beq hcomma, Except.ok.inj h⟩
  · split at h
    · rename_i hclose
      exact .inr ⟨eq_of_beq hclose, Except.ok.inj h⟩
    · cases h

/-- What follows an element: a comma, or the end of the array. -/
theorem advance_array_cases
    (h : State.advance (.afterValue (.array :: stack)) t = .ok (role, next)) :
    (t.head = Byte.comma ∧ next = ⟨.value, .array :: stack⟩) ∨
      (t.head = Byte.closeArray ∧ next = .afterValue stack) := by
  simp only [State.advance, State.afterValue, State.continueIn, List.isEmpty_cons,
    Bool.false_eq_true, if_false, List.head?_cons] at h
  rcases comma_or_closing h with ⟨hcomma, hnext⟩ | ⟨hclose, hnext⟩
  · cases hnext
    exact .inl ⟨hcomma, rfl⟩
  · cases hnext
    exact .inr ⟨hclose, rfl⟩

/-- What follows a member: a comma, or the end of the object. -/
theorem advance_object_cases
    (h : State.advance (.afterValue (.object :: stack)) t = .ok (role, next)) :
    (t.head = Byte.comma ∧ next = ⟨.key, .object :: stack⟩) ∨
      (t.head = Byte.closeObject ∧ next = .afterValue stack) := by
  simp only [State.advance, State.afterValue, State.continueIn, List.isEmpty_cons,
    Bool.false_eq_true, if_false, List.head?_cons] at h
  rcases comma_or_closing h with ⟨hcomma, hnext⟩ | ⟨hclose, hnext⟩
  · cases hnext
    exact .inl ⟨hcomma, rfl⟩
  · cases hnext
    exact .inr ⟨hclose, rfl⟩

theorem advance_key_cases (h : State.advance ⟨.key, stack⟩ t = .ok (role, next)) :
    t.head = Byte.quote ∧ next = ⟨.colon, stack⟩ := by
  simp only [State.advance, State.beginMember] at h
  split at h
  · rename_i hquote
    cases h
    exact ⟨eq_of_beq hquote, rfl⟩
  · cases h

theorem advance_colon_cases (h : State.advance ⟨.colon, stack⟩ t = .ok (role, next)) :
    t.head = Byte.colon ∧ next = ⟨.value, stack⟩ := by
  simp only [State.advance] at h
  split at h
  · rename_i hcolon
    cases h
    exact ⟨eq_of_beq hcolon, rfl⟩
  · cases h

/-- After an opening bracket an array is closed at once, or it has elements. -/
theorem passes_element (h : Passes size ⟨.element, .array :: stack⟩ ts) :
    (∃ t ts', ts = t :: ts' ∧ t.head = Byte.closeArray ∧ Passes size (.afterValue stack) ts') ∨
      Passes size ⟨.value, .array :: stack⟩ ts := by
  cases ts with
  | nil => cases expect_of_passes_nil h
  | cons t ts =>
    by_cases hclose : t.head = Byte.closeArray
    · left
      obtain ⟨role, next, hadvance, hpasses⟩ := passes_cons h
      rw [advance_closeEmptyArray hclose] at hadvance
      cases hadvance
      exact ⟨t, ts, rfl, hclose, hpasses⟩
    · right
      obtain ⟨found, h⟩ := h
      rw [itemsFrom_element hclose] at h
      exact ⟨found, h⟩

/-- After an opening brace an object is closed at once, or it has members. -/
theorem passes_member (h : Passes size ⟨.member, .object :: stack⟩ ts) :
    (∃ t ts', ts = t :: ts' ∧ t.head = Byte.closeObject ∧ Passes size (.afterValue stack) ts') ∨
      Passes size ⟨.key, .object :: stack⟩ ts := by
  cases ts with
  | nil => cases expect_of_passes_nil h
  | cons t ts =>
    by_cases hclose : t.head = Byte.closeObject
    · left
      obtain ⟨role, next, hadvance, hpasses⟩ := passes_cons h
      rw [advance_closeEmptyObject hclose] at hadvance
      cases hadvance
      exact ⟨t, ts, rfl, hclose, hpasses⟩
    · right
      obtain ⟨found, h⟩ := h
      rw [itemsFrom_member hclose] at h
      exact ⟨found, h⟩

/-- At most so many tokens that the machine passes over from a value on begin with a value. -/
def BeginsNode (size n : Nat) : Prop :=
  ∀ stack ts, ts.length ≤ n → Passes size ⟨.value, stack⟩ ts →
    ∃ (v : Node) (rest : List Token), v.WellFormed ∧ ts = v.tokens ++ rest ∧
      Passes size (.afterValue stack) rest

def BeginsNodes (size n : Nat) : Prop :=
  ∀ stack ts, ts.length ≤ n → Passes size ⟨.value, .array :: stack⟩ ts →
    ∃ (elements : Nodes) (rest : List Token), elements.WellFormed ∧
      ts = elements.tokens ++ rest ∧ Passes size (.afterValue stack) rest

def BeginsFields (size n : Nat) : Prop :=
  ∀ stack ts, ts.length ≤ n → Passes size ⟨.key, .object :: stack⟩ ts →
    ∃ (members : Fields) (rest : List Token), members.WellFormed ∧
      ts = members.tokens ++ rest ∧ Passes size (.afterValue stack) rest

theorem beginsNode_succ {n : Nat} (helements : BeginsNodes size n)
    (hmembers : BeginsFields size n) : BeginsNode size (n + 1) := by
  intro stack ts hlength h
  cases ts with
  | nil => cases expect_of_passes_nil h
  | cons t ts =>
    have hshorter : ts.length ≤ n := Nat.le_of_succ_le_succ hlength
    obtain ⟨role, next, hadvance, hpasses⟩ := passes_cons h
    rcases advance_value_cases hadvance with ⟨harray, rfl⟩ | ⟨hobject, rfl⟩ | ⟨hatom, hword, rfl⟩
    · rcases passes_element hpasses with ⟨closing, rest, rfl, hclosing, hrest⟩ | hpasses
      · exact ⟨.emptyArray t closing, rest, ⟨harray, hclosing⟩, rfl, hrest⟩
      · obtain ⟨elements, rest, hwell, rfl, hrest⟩ := helements stack ts hshorter hpasses
        exact ⟨.array t elements, rest, ⟨harray, hwell⟩, rfl, hrest⟩
    · rcases passes_member hpasses with ⟨closing, rest, rfl, hclosing, hrest⟩ | hpasses
      · exact ⟨.emptyObject t closing, rest, ⟨hobject, hclosing⟩, rfl, hrest⟩
      · obtain ⟨members, rest, hwell, rfl, hrest⟩ := hmembers stack ts hshorter hpasses
        exact ⟨.object t members, rest, ⟨hobject, hwell⟩, rfl, hrest⟩
    · exact ⟨.atom t, ts, ⟨hatom, hword⟩, rfl, hpasses⟩

theorem beginsNodes_succ {n : Nat} (hvalue : BeginsNode size (n + 1))
    (helements : BeginsNodes size n) : BeginsNodes size (n + 1) := by
  intro stack ts hlength h
  -- The first element takes at least one token, and leaves fewer for the others.
  obtain ⟨v, rest, hv, rfl, hrest⟩ := hvalue (.array :: stack) ts hlength h
  cases rest with
  | nil => cases expect_of_passes_nil hrest
  | cons t rest =>
    obtain ⟨first, others, hfirst, -⟩ := v.exists_first hv
    have hshorter : rest.length ≤ n := by
      rw [hfirst, List.length_append, List.length_cons, List.length_cons] at hlength
      omega
    obtain ⟨role, next, hadvance, hpasses⟩ := passes_cons hrest
    rcases advance_array_cases hadvance with ⟨hcomma, rfl⟩ | ⟨hclose, rfl⟩
    · obtain ⟨elements, after, hwell, rfl, hafter⟩ := helements stack rest hshorter hpasses
      exact ⟨.more v t elements, after, ⟨hv, hcomma, hwell⟩,
        (Nodes.tokens_more_append v t elements after).symm, hafter⟩
    · exact ⟨.last v t, rest, ⟨hv, hclose⟩, (Nodes.tokens_last_append v t rest).symm, hpasses⟩

theorem beginsFields_succ {n : Nat} (hvalue : BeginsNode size n) (hmembers : BeginsFields size n) :
    BeginsFields size (n + 1) := by
  intro stack ts hlength h
  cases ts with
  | nil => cases expect_of_passes_nil h
  | cons key ts =>
    obtain ⟨_, _, hadvance, hpasses⟩ := passes_cons h
    obtain ⟨hkey, rfl⟩ := advance_key_cases hadvance
    cases ts with
    | nil => cases expect_of_passes_nil hpasses
    | cons colon ts =>
      obtain ⟨_, _, hadvance, hpasses⟩ := passes_cons hpasses
      obtain ⟨hcolon, rfl⟩ := advance_colon_cases hadvance
      simp only [List.length_cons] at hlength
      obtain ⟨v, rest, hv, rfl, hrest⟩ := hvalue (.object :: stack) ts (by omega) hpasses
      cases rest with
      | nil => cases expect_of_passes_nil hrest
      | cons t rest =>
        have hshorter : rest.length ≤ n := by
          rw [List.length_append, List.length_cons] at hlength
          omega
        obtain ⟨_, _, hadvance, hpasses⟩ := passes_cons hrest
        rcases advance_object_cases hadvance with ⟨hcomma, rfl⟩ | ⟨hclose, rfl⟩
        · obtain ⟨members, after, hwell, rfl, hafter⟩ := hmembers stack rest hshorter hpasses
          exact ⟨.more key colon v t members, after, ⟨hkey, hcolon, hv, hcomma, hwell⟩,
            (Fields.tokens_more_append key colon v t members after).symm, hafter⟩
        · exact ⟨.last key colon v t, rest, ⟨hkey, hcolon, hv, hclose⟩,
            (Fields.tokens_last_append key colon v t rest).symm, hpasses⟩

/-- What the machine passes over begins with a tree, of each of the three kinds. -/
theorem begins (size n : Nat) : BeginsNode size n ∧ BeginsNodes size n ∧ BeginsFields size n := by
  induction n with
  | zero =>
    have hnil : ∀ {s : State} {ts : List Token}, s.expect ≠ .nothing → ts.length ≤ 0 →
        ¬ Passes size s ts := by
      intro s ts hexpect hlength h
      obtain rfl := List.eq_nil_of_length_eq_zero (Nat.le_zero.mp hlength)
      exact hexpect (expect_of_passes_nil h)
    -- No value, element or member is expected where the tokens run out.
    refine ⟨?_, ?_, ?_⟩
    · exact fun stack ts hlength h => absurd h (hnil (by simp) hlength)
    · exact fun stack ts hlength h => absurd h (hnil (by simp) hlength)
    · exact fun stack ts hlength h => absurd h (hnil (by simp) hlength)
  | succ n ih =>
    obtain ⟨hvalue, helements, hmembers⟩ := ih
    -- Elements begin with a value of the same length, so the values go first.
    have hnext := beginsNode_succ helements hmembers
    exact ⟨hnext, beginsNodes_succ hnext helements, beginsFields_succ hvalue hmembers⟩

theorem exists_node (h : Passes size ⟨.value, stack⟩ ts) :
    ∃ (v : Node) (rest : List Token), v.WellFormed ∧ ts = v.tokens ++ rest ∧
      Passes size (.afterValue stack) rest :=
  (begins size ts.length).1 stack ts (Nat.le_refl _) h

end Outline

/-- The outline accepts the token sequences of trees, and counts what the trees hold. -/
theorem Token.outline_eq_ok_iff (size : Nat) (ts : List Token) (items : List Item) :
    Token.outline size ts = .ok items ↔
      ∃ v : Node, v.WellFormed ∧ v.tokens = ts ∧ v.items = items := by
  have htree : ∀ v : Node, v.WellFormed → Token.outline size v.tokens = .ok v.items := by
    intro v hv
    have hrun := v.itemsFrom_append size hv [] []
    rw [List.append_nil] at hrun
    unfold Token.outline
    rw [Outline.State.start, hrun]
    exact congrArg Except.ok (List.append_nil v.items)
  constructor
  · intro h
    obtain ⟨found, hfound, -⟩ := map_eq_ok_iff.mp h
    obtain ⟨v, rest, hv, rfl, hrest⟩ := Outline.exists_node ⟨found, hfound⟩
    -- Nothing may follow a complete value.
    cases rest with
    | nil =>
      rw [List.append_nil, htree v hv] at h
      rw [List.append_nil]
      exact ⟨v, hv, rfl, Except.ok.inj h⟩
    | cons t rest =>
      obtain ⟨role, next, hadvance, -⟩ := Outline.passes_cons hrest
      -- The machine is in its last state, which accepts no token.
      cases hadvance
  · rintro ⟨v, hv, rfl, rfl⟩
    exact htree v hv

end JsonTree
