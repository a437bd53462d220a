import JsonTree.Shape.Encode
import Mathlib.Data.Int.ModEq

/-!
# The meaning of shapes

What a shape is encoded as, and how encoding it fails, without the encoder. A shape has a structural
meaning, which is a value, whatever the limit is. It also makes calls that may fail, in depth-first
order: each container is opened before its contents, and each key of a map is asked for before the
value of its entry. The first call that fails decides how the whole fails.

## Main definitions

- `Shape.Names`: the shapes that give a text as a key.
- `Shape.Call`, `Shape.calls`: the calls that may fail, in depth-first order.
- `Shape.FirstFailure`: the failure of the first call that fails.
- `Shape.gathered`: the rows of members that may repeat keys.
- `Shape.Denotes`: the structural meaning.

## Main statements

- `Shape.FirstFailure.eq`, `Shape.Denotes.eq`: there is at most one failure, and one meaning.
-/

namespace JsonTree.Shape

/-! ## §1 Keys -/

/-- The shapes that give a text as a key, and that text. -/
inductive Names : Shape → Bytes → Prop where
  | text {content : Bytes} : Names (.text content) content
  | unitVariant {name : Bytes} : Names (.unitVariant name) name
  | newtypeStruct {datum : Shape} {text : Bytes} :
      Names datum text → Names (.newtypeStruct datum) text

theorem Names.eq {k : Shape} {text text' : Bytes} (h : Names k text) (h' : Names k text') :
    text = text' := by
  induction h with
  | text | unitVariant => cases h'; rfl
  | newtypeStruct _ ih =>
    cases h' with
    | newtypeStruct h' => exact ih h'

/-! ## §2 Calls that may fail -/

/-- The calls that may fail. -/
inductive Call where
  /-- Opening a container, whose contents lie at a level. -/
  | opening (level : Nat)
  /-- Asking a shape for a key. -/
  | key (datum : Shape)

/-- How a call fails: a container beyond the limit, or a key that is no text. -/
inductive Call.Fails (limit : Nat) : Call → EncodeError → Prop where
  | opening {level : Nat} : limit < level → Fails limit (.opening level) (.depthExceeded limit)
  | key {datum : Shape} : (∀ text, ¬ datum.Names text) → Fails limit (.key datum) .keyNotString

/-- The call does not fail. -/
def Call.Passes (limit : Nat) (c : Call) : Prop := ∀ e, ¬ c.Fails limit e

/-- The failure of the first call that fails. -/
inductive FirstFailure (limit : Nat) : List Call → EncodeError → Prop where
  | here {c : Call} {later : List Call} {e : EncodeError} :
      c.Fails limit e → FirstFailure limit (c :: later) e
  | later {c : Call} {later : List Call} {e : EncodeError} :
      c.Passes limit → FirstFailure limit later e → FirstFailure limit (c :: later) e

mutual

/-- The calls of a shape at a depth that may fail, in depth-first order. The payload of a tuple or a
struct variant lies two levels down: in the object around the variant, and in its own container. -/
def calls (depth : Nat) : Shape → List Call
  | .bool _ | .int _ _ | .f32 _ | .f64 _ | .char _ | .text _ => []
  | .unit | .unitStruct | .absent | .unitVariant _ | .depth => []
  | .bytes _ => [.opening (depth + 1)]
  | .present datum | .newtypeStruct datum => calls depth datum
  | .newtypeVariant _ datum => .opening (depth + 1) :: calls (depth + 1) datum
  | .seq elements | .tuple elements | .tupleStruct elements =>
    .opening (depth + 1) :: callsOfElements (depth + 1) elements
  | .tupleVariant _ elements =>
    .opening (depth + 1) :: .opening (depth + 2) :: callsOfElements (depth + 2) elements
  | .map entries => .opening (depth + 1) :: callsOfEntries (depth + 1) entries
  | .struct fields => .opening (depth + 1) :: callsOfFields (depth + 1) fields
  | .structVariant _ fields =>
    .opening (depth + 1) :: .opening (depth + 2) :: callsOfFields (depth + 2) fields

def callsOfElements (depth : Nat) : List Shape → List Call
  | [] => []
  | datum :: elements => calls depth datum ++ callsOfElements depth elements

def callsOfEntries (depth : Nat) : List (Shape × Shape) → List Call
  | [] => []
  | (k, datum) :: entries => .key k :: (calls depth datum ++ callsOfEntries depth entries)

def callsOfFields (depth : Nat) : List (Bytes × Shape) → List Call
  | [] => []
  | (_, datum) :: fields => calls depth datum ++ callsOfFields depth fields

end

section

variable {limit : Nat} {c : Call} {cs cs' : List Call} {e e' : EncodeError}

theorem Call.Fails.eq (h : c.Fails limit e) (h' : c.Fails limit e') : e = e' := by
  cases h <;> cases h' <;> rfl

/-- There is at most one first failure. -/
theorem FirstFailure.eq (h : FirstFailure limit cs e) (h' : FirstFailure limit cs e') : e = e' := by
  induction h with
  | here hfails =>
    cases h' with
    | here hfails' => exact hfails.eq hfails'
    | later hpasses _ => exact absurd hfails (hpasses _)
  | later hpasses _ ih =>
    cases h' with
    | here hfails' => exact absurd hfails' (hpasses _)
    | later _ h' => exact ih h'

theorem FirstFailure.append (h : FirstFailure limit cs e) (cs' : List Call) :
    FirstFailure limit (cs ++ cs') e := by
  induction h with
  | here hfails => exact .here hfails
  | later hpasses _ ih => exact .later hpasses ih

theorem FirstFailure.of_append (hpasses : ∀ c ∈ cs, c.Passes limit)
    (h : FirstFailure limit cs' e) : FirstFailure limit (cs ++ cs') e := by
  induction cs with
  | nil => exact h
  | cons c cs ih =>
    obtain ⟨hc, hcs⟩ := List.forall_mem_cons.mp hpasses
    exact .later hc (ih hcs)

/-- Where all calls pass, none is the first to fail. -/
theorem FirstFailure.not_passes (h : FirstFailure limit cs e) :
    ¬ ∀ c ∈ cs, c.Passes limit := by
  induction h with
  | here hfails => exact fun hall => hall _ List.mem_cons_self _ hfails
  | later _ _ ih => exact fun hall => ih fun c hc => hall c (List.mem_cons_of_mem _ hc)

end

/-! ## §3 Structural meaning -/

/-- The value of the last member with a key. -/
def latest (members : List (Bytes × Value)) (key : Bytes) : Value :=
  (members.reverse.lookup key).getD .null

/-- One row for each key, in the order of the first members with these keys, with the value of the
last one. -/
def gathered (members : List (Bytes × Value)) : List (Text × Value) :=
  (members.map (·.1)).eraseDups.map fun key => (.owned key, latest members key)

mutual

/-- The structural meaning of a shape, which is a value. A depth is told because one shape describes
itself as the depth where it stands. -/
inductive Denotes : (depth : Nat) → Shape → Value → Prop where
  | bool {depth : Nat} {b : Bool} : Denotes depth (.bool b) (.bool b)
  /-- Integers are kept modulo `2 ^ 64`. -/
  | int {depth : Nat} {type : IntType} {n : Int} {m : Int64} :
      m.toInt ≡ n [ZMOD 2 ^ 64] → Denotes depth (.int type n) (.i64 m)
  | f32 {depth : Nat} {x : Binary64} : Denotes depth (.f32 x) (.f64 x.toSingle)
  | f64 {depth : Nat} {x : Binary64} : Denotes depth (.f64 x) (.f64 x)
  | char {depth : Nat} {code : UInt32} :
      Utf8.isScalarValue code.toNat = true →
      Denotes depth (.char code) (.string (.owned (Utf8.encode code.toNat)))
  /-- What is no scalar value becomes the replacement character. -/
  | replaced {depth : Nat} {code : UInt32} :
      Utf8.isScalarValue code.toNat = false →
      Denotes depth (.char code) (.string (.owned (Utf8.encode 0xFFFD)))
  | text {depth : Nat} {content : Bytes} :
      Denotes depth (.text content) (.string (.owned content))
  | bytes {depth : Nat} {content : Bytes} :
      Denotes depth (.bytes content) (.array (content.map fun b => .i64 (Int64.ofNat b.toNat)))
  | unit {depth : Nat} : Denotes depth .unit .null
  | unitStruct {depth : Nat} : Denotes depth .unitStruct .null
  | absent {depth : Nat} : Denotes depth .absent .null
  | present {depth : Nat} {datum : Shape} {v : Value} :
      Denotes depth datum v → Denotes depth (.present datum) v
  | newtypeStruct {depth : Nat} {datum : Shape} {v : Value} :
      Denotes depth datum v → Denotes depth (.newtypeStruct datum) v
  | unitVariant {depth : Nat} {name : Bytes} :
      Denotes depth (.unitVariant name) (.string (.owned name))
  | newtypeVariant {depth : Nat} {name : Bytes} {datum : Shape} {v : Value} :
      Denotes (depth + 1) datum v →
      Denotes depth (.newtypeVariant name datum) (.object [(.owned name, v)])
  | seq {depth : Nat} {elements : List Shape} {vs : List Value} :
      DenotesEach (depth + 1) elements vs → Denotes depth (.seq elements) (.array vs)
  | tuple {depth : Nat} {elements : List Shape} {vs : List Value} :
      DenotesEach (depth + 1) elements vs → Denotes depth (.tuple elements) (.array vs)
  | tupleStruct {depth : Nat} {elements : List Shape} {vs : List Value} :
      DenotesEach (depth + 1) elements vs → Denotes depth (.tupleStruct elements) (.array vs)
  | tupleVariant {depth : Nat} {name : Bytes} {elements : List Shape} {vs : List Value} :
      DenotesEach (depth + 2) elements vs →
      Denotes depth (.tupleVariant name elements) (.object [(.owned name, .array vs)])
  | map {depth : Nat} {entries : List (Shape × Shape)} {members : List (Bytes × Value)} :
      DenotesEntries (depth + 1) entries members →
      Denotes depth (.map entries) (.object (gathered members))
  | struct {depth : Nat} {fields : List (Bytes × Shape)} {members : List (Bytes × Value)} :
      DenotesFields (depth + 1) fields members →
      Denotes depth (.struct fields) (.object (gathered members))
  | structVariant {depth : Nat} {name : Bytes} {fields : List (Bytes × Shape)}
      {members : List (Bytes × Value)} :
      DenotesFields (depth + 2) fields members →
      Denotes depth (.structVariant name fields)
        (.object [(.owned name, .object (gathered members))])
  | depth {depth : Nat} {m : Int64} :
      m.toInt ≡ depth [ZMOD 2 ^ 64] → Denotes depth .depth (.i64 m)

/-- The meanings of some elements, in order. -/
inductive DenotesEach : (depth : Nat) → List Shape → List Value → Prop where
  | nil {depth : Nat} : DenotesEach depth [] []
  | cons {depth : Nat} {datum : Shape} {elements : List Shape} {v : Value} {vs : List Value} :
      Denotes depth datum v → DenotesEach depth elements vs →
      DenotesEach depth (datum :: elements) (v :: vs)

/-- The members that the entries of a map mean, in order and with repeated keys. -/
inductive DenotesEntries : (depth : Nat) → List (Shape × Shape) → List (Bytes × Value) → Prop where
  | nil {depth : Nat} : DenotesEntries depth [] []
  | cons {depth : Nat} {k datum : Shape} {entries : List (Shape × Shape)} {text : Bytes}
      {v : Value} {members : List (Bytes × Value)} :
      Names k text → Denotes depth datum v → DenotesEntries depth entries members →
      DenotesEntries depth ((k, datum) :: entries) ((text, v) :: members)

/-- The members that the fields of a struct mean, in order and with repeated names. -/
inductive DenotesFields : (depth : Nat) → List (Bytes × Shape) → List (Bytes × Value) → Prop where
  | nil {depth : Nat} : DenotesFields depth [] []
  | cons {depth : Nat} {name : Bytes} {datum : Shape} {fields : List (Bytes × Shape)} {v : Value}
      {members : List (Bytes × Value)} :
      Denotes depth datum v → DenotesFields depth fields members →
      DenotesFields depth ((name, datum) :: fields) ((name, v) :: members)

end

/-- An integer modulo `2 ^ 64` is one word. -/
theorem toInt_modEq_iff (m : Int64) (n : Int) : m.toInt ≡ n [ZMOD 2 ^ 64] ↔ m = Int64.ofInt n := by
  rw [eq_comm, Int64.ofInt_eq_iff_bmod_eq_toInt]
  have hlow := Int64.le_toInt m
  have hhigh := Int64.toInt_lt m
  rw [Int.ModEq]
  constructor <;> intro h <;> simp only [Int.bmod_def] at * <;> omega

mutual

/-- A shape has at most one meaning. -/
theorem Denotes.eq {depth : Nat} {s : Shape} {v w : Value} (h : Denotes depth s v)
    (h' : Denotes depth s w) : v = w := by
  cases h with
  | int h =>
    cases h' with
    | int h' => rw [(toInt_modEq_iff ..).mp h, (toInt_modEq_iff ..).mp h']
  | depth h =>
    cases h' with
    | depth h' => rw [(toInt_modEq_iff ..).mp h, (toInt_modEq_iff ..).mp h']
  | char h =>
    cases h' with
    | char _ => rfl
    | replaced h' => cases h.symm.trans h'
  | replaced h =>
    cases h' with
    | char h' => cases h.symm.trans h'
    | replaced _ => rfl
  | present h =>
    cases h' with
    | present h' => exact h.eq h'
  | newtypeStruct h =>
    cases h' with
    | newtypeStruct h' => exact h.eq h'
  | newtypeVariant h =>
    cases h' with
    | newtypeVariant h' => rw [h.eq h']
  | seq h =>
    cases h' with
    | seq h' => rw [h.eq h']
  | tuple h =>
    cases h' with
    | tuple h' => rw [h.eq h']
  | tupleStruct h =>
    cases h' with
    | tupleStruct h' => rw [h.eq h']
  | tupleVariant h =>
    cases h' with
    | tupleVariant h' => rw [h.eq h']
  | map h =>
    cases h' with
    | map h' => rw [h.eq h']
  | struct h =>
    cases h' with
    | struct h' => rw [h.eq h']
  | structVariant h =>
    cases h' with
    | structVariant h' => rw [h.eq h']
  | bool | f32 | f64 | text | bytes | unit | unitStruct | absent | unitVariant => cases h'; rfl

theorem DenotesEach.eq {depth : Nat} {elements : List Shape} {vs ws : List Value}
    (h : DenotesEach depth elements vs) (h' : DenotesEach depth elements ws) : vs = ws := by
  cases h with
  | nil => cases h'; rfl
  | cons hv hvs =>
    cases h' with
    | cons hw hws => rw [hv.eq hw, hvs.eq hws]

theorem DenotesEntries.eq {depth : Nat} {entries : List (Shape × Shape)}
    {members members' : List (Bytes × Value)} (h : DenotesEntries depth entries members)
    (h' : DenotesEntries depth entries members') : members = members' := by
  cases h with
  | nil => cases h'; rfl
  | cons hkey hv hmembers =>
    cases h' with
    | cons hkey' hw hmembers' => rw [hkey.eq hkey', hv.eq hw, hmembers.eq hmembers']

theorem DenotesFields.eq {depth : Nat} {fields : List (Bytes × Shape)}
    {members members' : List (Bytes × Value)} (h : DenotesFields depth fields members)
    (h' : DenotesFields depth fields members') : members = members' := by
  cases h with
  | nil => cases h'; rfl
  | cons hv hmembers =>
    cases h' with
    | cons hw hmembers' => rw [hv.eq hw, hmembers.eq hmembers']

end

end JsonTree.Shape
