import JsonTree.Text.Buffers
import JsonTree.Value

/-!
# Live values

A live value is a value as it is kept and changed. Its objects have their room, their blocks and
their key index, which they take along wherever they are moved, and its borrowed texts lie in
buffers that have a name. What can be said about it without all this is its contents, a `Value`;
what is asked of atoms is asked of the contents.

## Main definitions

- `Live`: a live value.
- `Live.contents`: what it says.
- `Live.copied`: a copy, whose objects are laid out anew.
-/

namespace JsonTree

/-- A live value tree. -/
inductive Live where
  | null
  | bool (b : Bool)
  | i64 (n : Int64)
  | f64 (x : Binary64)
  | string (t : Held Slice)
  | array (elements : List Live)
  /-- An object, by its rows and how they are stored. -/
  | object (rows : List (Held Slice × Live)) (storage : Storage)

namespace Live

/-- The live value of an object. -/
def ofObject (o : Object Slice Live) : Live := .object o.rows o.toStorage

/-! ## §1 Contents -/

mutual

/-- What a live value says. -/
def contents : Live → Value
  | .null => .null
  | .bool b => .bool b
  | .i64 n => .i64 n
  | .f64 x => .f64 x
  | .string t => .string t.text
  | .array elements => .array (contentsOfElements elements)
  | .object rows _ => .object (contentsOfRows rows)

/-- What some elements say. -/
def contentsOfElements : List Live → List Value
  | [] => []
  | v :: elements => contents v :: contentsOfElements elements

/-- What some rows say. -/
def contentsOfRows : List (Held Slice × Live) → List (Text × Value)
  | [] => []
  | (key, v) :: rows => (key.text, contents v) :: contentsOfRows rows

end

/-- The kind of a live value. -/
def kind (v : Live) : Value.Kind := v.contents.kind

/-! ## §2 Making live values -/

/-- The live value of a number. -/
def ofNumber : Number → Live
  | .i64 n => .i64 n
  | .f64 x => .f64 x

/-- The live value of an integer, kept by its 64 low bits. -/
def ofInt (n : Int) : Live := .i64 (Int64.ofInt n)

/-- The live value of a primitive. Text is copied. -/
def ofPrimitive : Primitive → Live
  | .null => .null
  | .bool b => .bool b
  | .int _ n => ofInt n
  | .f32 x => .f64 x.toSingle
  | .f64 x => .f64 x
  | .text bytes => .string (.owned bytes)
  | .terminated bytes => .string (.owned (bytes.getD []).untilZero)

mutual

/-- A copy. Borrowed text stays borrowed, and objects are laid out anew, without an index. -/
def copied : Live → Live
  | .array elements => .array (copiedElements elements)
  | .object rows _ => ofObject (.ofRows (copiedRows rows))
  | v => v

/-- A copy of some elements. -/
def copiedElements : List Live → List Live
  | [] => []
  | v :: elements => copied v :: copiedElements elements

/-- A copy of some rows. -/
def copiedRows : List (Held Slice × Live) → List (Held Slice × Live)
  | [] => []
  | (key, v) :: rows => (key, copied v) :: copiedRows rows

end

end Live

end JsonTree
