import JsonTree.Proofs.Object.Assoc
import JsonTree.Proofs.Object.Values
import JsonTree.Value

/-!
# Equality of contents

Two values are equal when they have one kind and equal contents. Doubles compare as numbers, text
by its bytes whether borrowed or owned, arrays element by element. Objects compare without regard
to order: equally many rows, and for each row of the first an equal value under its key in the
second, which is searched by its rows alone. Live values compare in the same way as long as no index
in them is stale.

Equality of values reads the bytes of texts and never asks who owns them, so that detaching either
side changes nothing. It is reflexive only on proper values: a NaN differs from itself, and an
object that repeats a key finds the same row twice.

## Main definitions

- `Value.equals`: equality of values.
- `Value.Proper`: values without NaN and without repeated keys.

## Main statements

- `Value.equals_detached`: equality is blind to ownership.
- `Value.equals_self`: a proper value equals itself.
-/

namespace JsonTree

namespace Value

/-! ## §1 Equality -/

mutual

/-- Equality of values. -/
def equals : Value → Value → Bool
  | .null, .null => true
  | .bool a, .bool b => a == b
  | .i64 m, .i64 n => m == n
  | .f64 x, .f64 y => x.equals y
  | .string s, .string t => s.bytes == t.bytes
  | .array xs, .array ys => equalsElements xs ys
  | .object xs, .object ys => xs.length == ys.length && equalsRows xs (.ofRows ys)
  | _, _ => false

/-- Equality of arrays, element by element. -/
def equalsElements : List Value → List Value → Bool
  | [], [] => true
  | x :: xs, y :: ys => equals x y && equalsElements xs ys
  | _, _ => false

/-- Whether an object has an equal value under the key of each given row. -/
def equalsRows : List (Text × Value) → Object Bytes Value → Bool
  | [], _ => true
  | (key, x) :: xs, other =>
    (match other.get? key.bytes with
      | some y => equals x y
      | none => false) &&
    equalsRows xs other

end

/-! ## §2 Detached rows -/

theorem detachedRows_eq_map (rows : List (Text × Value)) :
    detachedRows rows = rows.map fun row => (row.1.detached, row.2.detached) := by
  induction rows with
  | nil => rfl
  | cons row rows ih => rw [detachedRows, ih, List.map_cons]

theorem length_detachedRows (rows : List (Text × Value)) :
    (detachedRows rows).length = rows.length := by
  rw [detachedRows_eq_map, List.length_map]

/-- What is found under a key of detached rows is what was found before, detached. -/
theorem get?_detachedRows (rows : List (Text × Value)) (key : Bytes) :
    (Object.ofRows (detachedRows rows)).get? key =
      ((Object.ofRows rows).get? key).map detached := by
  rw [detachedRows_eq_map]
  exact (Object.followsRows_ofRows rows).get?_relabelled (g := Held.detached) (f := detached)
    (fun _ => rfl) key

mutual

theorem detached_detached (v : Value) : v.detached.detached = v.detached := by
  cases v with
  | array elements => exact congrArg array (detachedElements_detachedElements elements)
  | object rows => exact congrArg object (detachedRows_detachedRows rows)
  | null | bool | i64 | f64 | string => rfl

theorem detachedElements_detachedElements (elements : List Value) :
    detachedElements (detachedElements elements) = detachedElements elements := by
  cases elements with
  | nil => rfl
  | cons v elements =>
    simp only [detachedElements, detached_detached v, detachedElements_detachedElements elements]

theorem detachedRows_detachedRows (rows : List (Text × Value)) :
    detachedRows (detachedRows rows) = detachedRows rows := by
  cases rows with
  | nil => rfl
  | cons row rows =>
    simp only [detachedRows, detached_detached row.2, detachedRows_detachedRows rows]
    rfl

end

/-! ## §3 Equality is blind to ownership -/

mutual

/-- Equality is blind to ownership. -/
theorem equals_detached (v w : Value) : v.detached.equals w.detached = v.equals w := by
  cases v with
  | array elements =>
    cases w with
    | array others => exact equalsElements_detached elements others
    | null | bool | i64 | f64 | string | object => rfl
  | object rows =>
    cases w with
    | object others =>
      simp only [detached, equals, length_detachedRows, equalsRows_detached rows others]
    | null | bool | i64 | f64 | string | array => rfl
  | null | bool | i64 | f64 | string => cases w <;> rfl

theorem equalsElements_detached (elements others : List Value) :
    equalsElements (detachedElements elements) (detachedElements others) =
      equalsElements elements others := by
  cases elements with
  | nil => cases others <;> rfl
  | cons v elements =>
    cases others with
    | nil => rfl
    | cons w others =>
      simp only [detachedElements, equalsElements, equals_detached v w,
        equalsElements_detached elements others]

theorem equalsRows_detached (rows others : List (Text × Value)) :
    equalsRows (detachedRows rows) (.ofRows (detachedRows others)) =
      equalsRows rows (.ofRows others) := by
  cases rows with
  | nil => rfl
  | cons row rows =>
    obtain ⟨key, v⟩ := row
    have hkey : key.detached.bytes = key.bytes := rfl
    have hvalue := equals_detached v
    simp only [detachedRows, equalsRows, hkey, get?_detachedRows, equalsRows_detached rows others]
    -- Both lookups find the same row, or none.
    cases (Object.ofRows others).get? key.bytes with
    | none => rfl
    | some w => simp only [Option.map_some, hvalue w]

end

/-! ## §4 Proper values -/

mutual

/-- No double in the tree is a NaN, and no object in it repeats a key. -/
def Proper : Value → Prop
  | .f64 x => x.isNaN = false
  | .array elements => ProperElements elements
  | .object rows => (Rows.keys rows).Nodup ∧ ProperRows rows
  | .null | .bool _ | .i64 _ | .string _ => True

def ProperElements : List Value → Prop
  | [] => True
  | v :: elements => Proper v ∧ ProperElements elements

def ProperRows : List (Text × Value) → Prop
  | [] => True
  | (_, v) :: rows => Proper v ∧ ProperRows rows

end

theorem properRows_lastOfEach {rows : List (Text × Value)} (h : ProperRows rows) :
    ProperRows (Rows.lastOfEach rows) := by
  induction rows with
  | nil => trivial
  | cons row rows ih =>
    rw [Rows.lastOfEach]
    split
    · exact ih h.2
    · exact ⟨h.1, ih h.2⟩

/-- A row of an object without repeated keys is found under its key. -/
theorem get?_of_mem {rows : List (Text × Value)} (hdistinct : (Rows.keys rows).Nodup)
    {row : Text × Value} (hmem : row ∈ rows) :
    (Object.ofRows rows).get? row.1.bytes = some row.2 := by
  rw [(Object.listed_of_none (o := .ofRows rows) hdistinct rfl).get?]
  exact Rows.value?_of_mem hdistinct hmem

mutual

/-- A proper value equals itself. -/
theorem equals_self (v : Value) (h : v.Proper) : v.equals v = true := by
  cases v with
  | bool b => exact beq_self_eq_true b
  | i64 n => exact beq_self_eq_true n
  | f64 x =>
    have hnan : x.isNaN = false := h
    simp [equals, Binary64.equals, hnan]
  | string t => exact beq_self_eq_true t.bytes
  | array elements => exact equalsElements_self elements h
  | object rows =>
    -- The rows run out one by one, but they are looked up in the whole object.
    have hrows := equalsRows_self rows h.2 (.ofRows rows) fun row hrow => get?_of_mem h.1 hrow
    simp only [equals, hrows, beq_self_eq_true, Bool.and_self]
  | null => rfl

theorem equalsElements_self (elements : List Value) (h : ProperElements elements) :
    equalsElements elements elements = true := by
  cases elements with
  | nil => rfl
  | cons v elements =>
    simp only [equalsElements, equals_self v h.1, equalsElements_self elements h.2, Bool.and_self]

theorem equalsRows_self (rows : List (Text × Value)) (h : ProperRows rows) (o : Object Bytes Value)
    (hfound : ∀ row ∈ rows, o.get? row.1.bytes = some row.2) : equalsRows rows o = true := by
  cases rows with
  | nil => rfl
  | cons row rows =>
    obtain ⟨key, v⟩ := row
    have hkey : o.get? key.bytes = some v := hfound (key, v) List.mem_cons_self
    have hrows := equalsRows_self rows h.2 o fun row hrow =>
      hfound row (List.mem_cons_of_mem _ hrow)
    simp only [equalsRows, hkey, equals_self v h.1, hrows, Bool.and_self]

end

end Value

end JsonTree
