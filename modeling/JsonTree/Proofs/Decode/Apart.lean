import JsonTree.Proofs.Decode.Document
import JsonTree.Proofs.Token.Sentence

/-!
# Trees without places

What is read of a tree depends on the bytes of its tokens only. Strings and numbers are read from
the first byte of their token towards the end of the input, so it has to be shown that what follows
the token has no say. For this a tree is compared with the one of the same tokens that stand apart:
each at offset zero, and before a space.

## Main definitions

- `Token.apart`, `Node.apart`: tokens and trees without their places.

## Main statements

- `Token.readAtom_apart`, `Node.read_apart`: what is read of an atom, and of a tree, without its
  place.
- `Node.read_eq_of_texts`: trees whose tokens have the same bytes are read as the same value.
-/

namespace JsonTree

open Grammar
open Outline (Item)

/-! ## §1 Trees without places -/

/-- A token by its bytes alone, before a space. -/
def Token.apart (t : Token) : Token := ⟨0, t.text, [0x20]⟩

mutual

/-- A tree by the bytes of its tokens. -/
def Node.apart : Node → Node
  | .atom t => .atom t.apart
  | .emptyArray opening closing => .emptyArray opening.apart closing.apart
  | .array opening elements => .array opening.apart elements.apart
  | .emptyObject opening closing => .emptyObject opening.apart closing.apart
  | .object opening members => .object opening.apart members.apart

def Nodes.apart : Nodes → Nodes
  | .last v closing => .last v.apart closing.apart
  | .more v comma elements => .more v.apart comma.apart elements.apart

def Fields.apart : Fields → Fields
  | .last key colon v closing => .last key.apart colon.apart v.apart closing.apart
  | .more key colon v comma members =>
    .more key.apart colon.apart v.apart comma.apart members.apart

end

/-- An item by the bytes of its token. -/
def Outline.Item.apart (item : Item) : Item := ⟨item.token.apart, item.count⟩

theorem Nodes.count_apart : (elements : Nodes) → elements.apart.count = elements.count
  | .last _ _ => rfl
  | .more _ _ elements => congrArg (· + 1) elements.count_apart

theorem Fields.count_apart : (members : Fields) → members.apart.count = members.count
  | .last _ _ _ _ => rfl
  | .more _ _ _ _ members => congrArg (· + 1) members.count_apart

mutual

theorem Node.items_apart : (v : Node) → v.apart.items = v.items.map Item.apart
  | .atom _ | .emptyArray _ _ | .emptyObject _ _ => rfl
  | .array _ elements => by
    simp only [Node.apart, Node.items, List.map_cons, elements.items_apart, elements.count_apart]
    rfl
  | .object _ members => by
    simp only [Node.apart, Node.items, List.map_cons, members.items_apart, members.count_apart]
    rfl

theorem Nodes.items_apart : (elements : Nodes) →
    elements.apart.items = elements.items.map Item.apart
  | .last v _ => by
    simp only [Nodes.apart, Nodes.items, List.map_append, List.map_cons, List.map_nil,
      v.items_apart]
    rfl
  | .more v _ elements => by
    simp only [Nodes.apart, Nodes.items, List.map_append, List.map_cons, v.items_apart,
      elements.items_apart]
    rfl

theorem Fields.items_apart : (members : Fields) →
    members.apart.items = members.items.map Item.apart
  | .last _ _ v _ => by
    simp only [Fields.apart, Fields.items, List.map_append, List.map_cons, List.map_nil,
      v.items_apart]
    rfl
  | .more _ _ v _ members => by
    simp only [Fields.apart, Fields.items, List.map_append, List.map_cons, v.items_apart,
      members.items_apart]
    rfl

end

theorem Node.tokens_apart (v : Node) : v.apart.tokens = v.tokens.map Token.apart := by
  rw [Node.tokens, v.items_apart, Node.tokens, List.map_map, List.map_map]
  rfl

section

variable {t : Token}

/-- A token stays one where a space follows it. -/
theorem piece_apart (hpiece : Piece t.text t.rest) : Piece t.apart.text t.apart.rest :=
  hpiece.lexeme.piece rfl

theorem wellFormed_atom_apart (hpiece : Piece t.text t.rest) (h : (Node.atom t).WellFormed) :
    (Node.atom t.apart).WellFormed :=
  (Token.atom_iff (piece_apart hpiece)).mp ((Token.atom_iff hpiece).mpr h)

end

mutual

theorem Node.wellFormed_apart (v : Node) (hv : v.WellFormed)
    (hpieces : ∀ t ∈ v.tokens, Piece t.text t.rest) : v.apart.WellFormed := by
  cases v with
  | atom t => exact wellFormed_atom_apart (hpieces t List.mem_cons_self) hv
  | emptyArray opening closing => exact hv
  | emptyObject opening closing => exact hv
  | array opening elements =>
    exact ⟨hv.1, elements.wellFormed_apart hv.2 (List.forall_mem_cons.mp hpieces).2⟩
  | object opening members =>
    exact ⟨hv.1, members.wellFormed_apart hv.2 (List.forall_mem_cons.mp hpieces).2⟩

theorem Nodes.wellFormed_apart (elements : Nodes) (hv : elements.WellFormed)
    (hpieces : ∀ t ∈ elements.tokens, Piece t.text t.rest) : elements.apart.WellFormed := by
  cases elements with
  | last v closing =>
    rw [Nodes.tokens_last, List.forall_mem_append] at hpieces
    exact ⟨v.wellFormed_apart hv.1 hpieces.1, hv.2⟩
  | more v comma elements =>
    rw [Nodes.tokens_more, List.forall_mem_append, List.forall_mem_cons] at hpieces
    exact ⟨v.wellFormed_apart hv.1 hpieces.1, hv.2.1,
      elements.wellFormed_apart hv.2.2 hpieces.2.2⟩

theorem Fields.wellFormed_apart (members : Fields) (hv : members.WellFormed)
    (hpieces : ∀ t ∈ members.tokens, Piece t.text t.rest) : members.apart.WellFormed := by
  cases members with
  | last key colon v closing =>
    obtain ⟨hkey, hcolon, hv, hclosing⟩ := hv
    rw [Fields.tokens_last, List.forall_mem_cons, List.forall_mem_cons,
      List.forall_mem_append] at hpieces
    exact ⟨hkey, hcolon, v.wellFormed_apart hv hpieces.2.2.1, hclosing⟩
  | more key colon v comma members =>
    obtain ⟨hkey, hcolon, hv, hcomma, hmembers⟩ := hv
    rw [Fields.tokens_more, List.forall_mem_cons, List.forall_mem_cons, List.forall_mem_append,
      List.forall_mem_cons] at hpieces
    exact ⟨hkey, hcolon, v.wellFormed_apart hv hpieces.2.2.1, hcomma,
      members.wellFormed_apart hmembers hpieces.2.2.2.2⟩

end

/-! ## §2 What is read -/

/-- The text of a body does not depend on where it stands and on what follows it. -/
theorem Text.read_moved {body : Bytes} (hbody : Body body) {offset : Nat} {rest : Bytes} {t : Text}
    (h : read offset (body ++ Byte.quote :: rest) = .ok t) (offset' : Nat) (rest' : Bytes) :
    read offset' (body ++ Byte.quote :: rest') = .ok t := by
  have hcontents := contents_of_read hbody h
  rcases read_body hbody offset rest with ⟨hplain, hread⟩ | ⟨hplain, hread⟩
  · rcases read_body hbody offset' rest' with ⟨-, hread'⟩ | ⟨hescape, -⟩
    · rw [hread', ← hread, h]
    · exact absurd hplain hescape
  · rcases read_body hbody offset' rest' with ⟨hplain', -⟩ | ⟨-, hread'⟩
    · exact absurd hplain' hplain
    · rw [Escape.unescape_contents hcontents] at hread hread'
      rw [hread', ← h, hread]
      rfl

namespace Token

variable {t : Token} {form : Representation} {root : Bool} {x : Value}

theorem string_apart (hpiece : Piece t.text t.rest) (hquote : t.head = Byte.quote) {text : Text}
    (h : t.string = .ok text) : t.apart.string = .ok text := by
  obtain ⟨body, htext, hbody⟩ := text_of_quote hpiece hquote
  rw [string_of_quoted htext] at h
  have hapart : t.apart.text = quoted body := htext
  rw [string_of_quoted hapart]
  exact Text.read_moved hbody h _ _

/-- What is read of an atom does not depend on where it stands and on what follows it. -/
theorem readAtom_apart (hpiece : Piece t.text t.rest) (hwell : (Node.atom t).WellFormed)
    (h : t.readAtom form root = .ok x) : t.apart.readAtom form root = .ok x := by
  have hends : endsNumber root [0x20] = true := by cases root <;> rfl
  have hhead : t.apart.head = t.head := rfl
  rcases readAtom_kinds hpiece hwell.1 h with ⟨l, n, hnumeral, hdenotes, rfl⟩ |
    ⟨hquote, text, htext, rfl⟩ | ⟨hnull, rfl⟩ | ⟨htrue, rfl⟩ | ⟨hfalse, rfl⟩
  -- A number is the literal that the bytes of the token spell, and a space ends it.
  · exact (holdsAtom_number hnumeral hdenotes hends).read
  · rw [readAtom, hhead, hquote, string_apart hpiece hquote htext]
    rfl
  · rw [readAtom, hhead, hnull]
    rfl
  · rw [readAtom, hhead, htrue]
    rfl
  · rw [readAtom, hhead, hfalse]
    rfl

end Token

section

variable (form : Representation)

mutual

/-- What is read of a tree depends on the bytes of its tokens only. -/
theorem Node.read_apart (v : Node) (hv : v.WellFormed)
    (hpieces : ∀ t ∈ v.tokens, Piece t.text t.rest) {levels : Nat} {root : Bool} {x : Value}
    (h : v.read form levels root = .ok x) : v.apart.read form levels root = .ok x := by
  cases v with
  | atom t =>
    rw [Node.read_atom] at h
    rw [Node.apart, Node.read_atom]
    exact Token.readAtom_apart (hpieces t List.mem_cons_self) hv h
  | emptyArray opening closing =>
    cases levels with
    | zero => cases h
    | succ levels => exact h
  | emptyObject opening closing =>
    cases levels with
    | zero => cases h
    | succ levels => exact h
  | array opening elements =>
    cases levels with
    | zero => cases h
    | succ levels =>
      obtain ⟨xs, hxs, rfl⟩ := map_eq_ok_iff.mp h
      exact map_eq_ok_iff.mpr
        ⟨xs, elements.read_apart hv.2 (List.forall_mem_cons.mp hpieces).2 hxs, rfl⟩
  | object opening members =>
    cases levels with
    | zero => cases h
    | succ levels =>
      obtain ⟨rows, hrows, rfl⟩ := map_eq_ok_iff.mp h
      exact map_eq_ok_iff.mpr
        ⟨rows, members.read_apart hv.2 (List.forall_mem_cons.mp hpieces).2 hrows, rfl⟩

theorem Nodes.read_apart (elements : Nodes) (hv : elements.WellFormed)
    (hpieces : ∀ t ∈ elements.tokens, Piece t.text t.rest) {levels : Nat} {xs : List Value}
    (h : elements.read form levels = .ok xs) : elements.apart.read form levels = .ok xs := by
  cases elements with
  | last v closing =>
    rw [Nodes.tokens_last, List.forall_mem_append] at hpieces
    obtain ⟨x, hx, hxs⟩ := bind_eq_ok_iff.mp h
    exact bind_eq_ok_iff.mpr ⟨x, v.read_apart hv.1 hpieces.1 hx, hxs⟩
  | more v comma elements =>
    rw [Nodes.tokens_more, List.forall_mem_append, List.forall_mem_cons] at hpieces
    obtain ⟨x, hx, h⟩ := bind_eq_ok_iff.mp h
    obtain ⟨others, hothers, hxs⟩ := bind_eq_ok_iff.mp h
    exact bind_eq_ok_iff.mpr ⟨x, v.read_apart hv.1 hpieces.1 hx, bind_eq_ok_iff.mpr
      ⟨others, elements.read_apart hv.2.2 hpieces.2.2 hothers, hxs⟩⟩

theorem Fields.read_apart (members : Fields) (hv : members.WellFormed)
    (hpieces : ∀ t ∈ members.tokens, Piece t.text t.rest) {levels : Nat}
    {rows : List (Text × Value)} (h : members.read form levels = .ok rows) :
    members.apart.read form levels = .ok rows := by
  cases members with
  | last key colon v closing =>
    obtain ⟨hkey, hcolon, hv, hclosing⟩ := hv
    rw [Fields.tokens_last, List.forall_mem_cons, List.forall_mem_cons,
      List.forall_mem_append] at hpieces
    obtain ⟨text, htext, h⟩ := bind_eq_ok_iff.mp h
    obtain ⟨x, hx, hrows⟩ := bind_eq_ok_iff.mp h
    exact bind_eq_ok_iff.mpr ⟨text, Token.string_apart hpieces.1 hkey htext, bind_eq_ok_iff.mpr
      ⟨x, v.read_apart hv hpieces.2.2.1 hx, hrows⟩⟩
  | more key colon v comma members =>
    obtain ⟨hkey, hcolon, hv, hcomma, hmembers⟩ := hv
    rw [Fields.tokens_more, List.forall_mem_cons, List.forall_mem_cons, List.forall_mem_append,
      List.forall_mem_cons] at hpieces
    obtain ⟨text, htext, h⟩ := bind_eq_ok_iff.mp h
    obtain ⟨x, hx, h⟩ := bind_eq_ok_iff.mp h
    obtain ⟨others, hothers, hrows⟩ := bind_eq_ok_iff.mp h
    exact bind_eq_ok_iff.mpr ⟨text, Token.string_apart hpieces.1 hkey htext, bind_eq_ok_iff.mpr
      ⟨x, v.read_apart hv hpieces.2.2.1 hx, bind_eq_ok_iff.mpr
        ⟨others, members.read_apart hmembers hpieces.2.2.2.2 hothers, hrows⟩⟩⟩

end

/-- Of trees with the same tokens the same is read, because the walk sees nothing but items. -/
theorem Node.read_eq_of_items {v v' : Node} (hv : v.WellFormed) (hv' : v'.WellFormed)
    (hitems : v.items = v'.items) (levels : Nat) (root : Bool) {x x' : Value}
    (h : v.read form levels root = .ok x) (h' : v'.read form levels root = .ok x') : x = x' := by
  have hwalk := v.readValue_items form 0 hv levels root none []
  have hwalk' := v'.readValue_items form 0 hv' levels root none []
  rw [hitems, hwalk', h, h'] at hwalk
  exact (congrArg Prod.fst (Except.ok.inj hwalk)).symm

end

/-- Two trees whose tokens have the same bytes are read as the same value, if they are read. -/
theorem Node.read_eq_of_texts (form : Representation) {v v' : Node} (hv : v.WellFormed)
    (hv' : v'.WellFormed) (hpieces : ∀ t ∈ v.tokens, Piece t.text t.rest)
    (hpieces' : ∀ t ∈ v'.tokens, Piece t.text t.rest)
    (htexts : v.tokens.map (·.text) = v'.tokens.map (·.text)) {levels : Nat} {root : Bool}
    {x x' : Value} (h : v.read form levels root = .ok x) (h' : v'.read form levels root = .ok x') :
    x = x' := by
  have happly : ∀ ts : List Token,
      ts.map Token.apart = (ts.map (·.text)).map fun text => ⟨0, text, [0x20]⟩ := fun ts => by
    rw [List.map_map]
    rfl
  have htokens : v.apart.tokens = v'.apart.tokens := by
    rw [v.tokens_apart, v'.tokens_apart, happly, happly, htexts]
  have hwell := v.wellFormed_apart hv hpieces
  have hwell' := v'.wellFormed_apart hv' hpieces'
  -- The counts of the outline are those of either tree.
  have houtline := (Token.outline_eq_ok_iff 0 _ _).mpr ⟨v.apart, hwell, rfl, rfl⟩
  have houtline' := (Token.outline_eq_ok_iff 0 _ _).mpr ⟨v'.apart, hwell', rfl, rfl⟩
  rw [htokens, houtline'] at houtline
  exact Node.read_eq_of_items form hwell hwell' (Except.ok.inj houtline).symm levels root
    (v.read_apart form hv hpieces h) (v'.read_apart form hv' hpieces' h')

end JsonTree
