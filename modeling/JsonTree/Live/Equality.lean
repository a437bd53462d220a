import JsonTree.Live

/-!
# Equality of live values

Two values are equal when they have one kind and equal contents. Doubles compare as numbers, text
by its bytes whether borrowed or owned, arrays element by element. Objects compare without regard
to order: equally many rows, and for each row of the first an equal value under its key in the
second. The second object is asked through its index, whatever that leads to.

## Main definitions

- `Live.equals`: equality of live values.
-/

namespace JsonTree.Live

mutual

/-- Equality of live values. -/
def equals : Live → Live → Bool
  | .null, .null => true
  | .bool a, .bool b => a == b
  | .i64 m, .i64 n => m == n
  | .f64 x, .f64 y => x.equals y
  | .string s, .string t => s.bytes == t.bytes
  | .array xs, .array ys => equalsElements xs ys
  | .object xs _, .object ys storage =>
    xs.length == ys.length && equalsRows xs (Object.indexed ⟨storage, ys⟩)
  | _, _ => false

/-- Equality of arrays, element by element. -/
def equalsElements : List Live → List Live → Bool
  | [], [] => true
  | x :: xs, y :: ys => equals x y && equalsElements xs ys
  | _, _ => false

/-- Whether an object has an equal value under the key of each given row. -/
def equalsRows : List (Held Slice × Live) → Object Slice Live → Bool
  | [], _ => true
  | (key, x) :: xs, other =>
    (match other.get? key.bytes with
      | some y => equals x y
      | none => false) &&
    equalsRows xs other

end

end JsonTree.Live
