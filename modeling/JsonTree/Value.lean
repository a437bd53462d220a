import JsonTree.Number
import JsonTree.Object

/-!
# Values

A value is null, a boolean, a 64-bit integer, a double, a text, an array of values, or an object,
which is given by its rows in storage order. Unsigned 64-bit integers share the integers: one of
`2 ^ 63` or more is kept by its bits and reads back negative. A value is what there is to say about
a `Live` value, which also has the storage of its objects.

## Main definitions

- `Value`, and `Value.Kind` with the names of the kinds.
- `Primitive`: the atoms that values are built from and compared with.
- `Value.Step`: one step of a path into a value.
- `Value.nesting`: how deep arrays and objects are nested.
- `Value.detached`: the same value with all text owned.
-/

namespace JsonTree

/-- A value tree. -/
inductive Value where
  | null
  | bool (b : Bool)
  | i64 (n : Int64)
  | f64 (x : Binary64)
  | string (t : Text)
  | array (elements : List Value)
  | object (rows : List (Text × Value))

/-- The atoms that have a type of their own. -/
inductive Primitive where
  | null
  | bool (b : Bool)
  /-- A number of a fixed-width integer type. -/
  | int (type : IntType) (n : Int)
  /-- A single-precision number, as a double. -/
  | f32 (x : Binary64)
  | f64 (x : Binary64)
  | text (bytes : Bytes)
  /-- Terminated text, or none at all. -/
  | terminated (bytes : Option Bytes)

namespace Value

/-! ## §1 Kinds -/

/-- The kinds of value. -/
inductive Kind where
  | null | bool | i64 | f64 | string | array | object
deriving DecidableEq

/-- The name of a kind. -/
def Kind.name : Kind → String
  | .null => "null"
  | .bool => "bool"
  | .i64 => "i64"
  | .f64 => "f64"
  | .string => "string"
  | .array => "array"
  | .object => "object"

/-- The kinds in the order of their numbers. -/
def Kind.all : List Kind := [.null, .bool, .i64, .f64, .string, .array, .object]

/-- The kind of a value. -/
def kind : Value → Kind
  | .null => .null
  | .bool _ => .bool
  | .i64 _ => .i64
  | .f64 _ => .f64
  | .string _ => .string
  | .array _ => .array
  | .object _ => .object

/-! ## §2 Making values -/

/-- The value of a number. -/
def ofNumber : Number → Value
  | .i64 n => .i64 n
  | .f64 x => .f64 x

/-- The value of an integer, kept by its 64 low bits. -/
def ofInt (n : Int) : Value := .i64 (Int64.ofInt n)

/-- The value of a primitive. Text is copied. -/
def ofPrimitive : Primitive → Value
  | .null => .null
  | .bool b => .bool b
  | .int _ n => ofInt n
  | .f32 x => .f64 x.toSingle
  | .f64 x => .f64 x
  | .text bytes => .string (.owned bytes)
  | .terminated bytes => .string (.owned (bytes.getD []).untilZero)

/-! ## §3 Paths -/

/-- One step of a path from a value to a part of it. -/
inductive Step where
  | key (bytes : Bytes)
  | index (i : Nat)
deriving DecidableEq

/-! ## §4 Whole trees -/

mutual

/-- How deep arrays and objects are nested: zero for an atom. -/
def nesting : Value → Nat
  | .array elements => nestingOfElements elements + 1
  | .object rows => nestingOfRows rows + 1
  | _ => 0

/-- The greatest nesting of some elements. -/
def nestingOfElements : List Value → Nat
  | [] => 0
  | v :: elements => max (nesting v) (nestingOfElements elements)

/-- The greatest nesting of the values of some rows. -/
def nestingOfRows : List (Text × Value) → Nat
  | [] => 0
  | (_, v) :: rows => max (nesting v) (nestingOfRows rows)

end

mutual

/-- The same value, with all of its text owned. -/
def detached : Value → Value
  | .string t => .string t.detached
  | .array elements => .array (detachedElements elements)
  | .object rows => .object (detachedRows rows)
  | v => v

/-- The same elements, with all of their text owned. -/
def detachedElements : List Value → List Value
  | [] => []
  | v :: elements => detached v :: detachedElements elements

/-- The same rows, with all of their text owned. -/
def detachedRows : List (Text × Value) → List (Text × Value)
  | [] => []
  | (key, v) :: rows => (key.detached, detached v) :: detachedRows rows

end

end Value

end JsonTree
