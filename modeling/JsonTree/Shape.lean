import JsonTree.Value

/-!
# Shapes

A shape is the description of a datum as it is handed to an encoder: one call per node, in a
vocabulary of scalars, optional and wrapped data, sequences, maps, structs and variants. Names of
types, numbers of variants and announced lengths never change what is encoded, so shapes leave them
out.

## Main definitions

- `Shape`: the description of a datum.
- `Shape.dictionary`: the map of a sorted dictionary.
- `Shape.ofValue`, `Shape.ofPrimitive`: the shapes of values and of primitives.
-/

namespace JsonTree

/-- The description of a datum. -/
inductive Shape where
  | bool (b : Bool)
  | int (type : IntType) (n : Int)
  | f32 (x : Binary64)
  | f64 (x : Binary64)
  /-- A character, by its code point. -/
  | char (code : UInt32)
  | text (content : Bytes)
  /-- Raw bytes, which are a sequence of small integers. -/
  | bytes (content : Bytes)
  | unit
  | unitStruct
  /-- An optional datum that is absent. -/
  | absent
  /-- An optional datum that is present. -/
  | present (datum : Shape)
  /-- A struct that only wraps one datum. -/
  | newtypeStruct (datum : Shape)
  | unitVariant (name : Bytes)
  | newtypeVariant (name : Bytes) (datum : Shape)
  | seq (elements : List Shape)
  | tuple (elements : List Shape)
  | tupleStruct (elements : List Shape)
  | tupleVariant (name : Bytes) (elements : List Shape)
  | map (entries : List (Shape × Shape))
  | struct (fields : List (Bytes × Shape))
  | structVariant (name : Bytes) (fields : List (Bytes × Shape))
  /-- A datum that describes itself as the depth it is encoded at. -/
  | depth

namespace Shape

/-! ## §1 Dictionaries -/

/-- Put an entry into a list sorted by key; an entry under the same key gives way. -/
def insertSorted (entry : Bytes × Shape) : List (Bytes × Shape) → List (Bytes × Shape)
  | [] => [entry]
  | e :: entries =>
    match Bytes.order entry.1 e.1 with
    | .lt => entry :: e :: entries
    | .eq => entry :: entries
    | .gt => e :: insertSorted entry entries

/-- The map of a dictionary: sorted by the bytes of the keys, the last entry of each key. -/
def dictionary (entries : List (Bytes × Shape)) : Shape :=
  .map ((entries.foldl (fun sorted entry => insertSorted entry sorted) []).map
    fun (key, datum) => (.text key, datum))

/-! ## §2 Values and primitives -/

mutual

/-- The shape of a value: each node of the tree is the datum of its kind. -/
def ofValue : Value → Shape
  | .null => .unit
  | .bool b => .bool b
  | .i64 n => .int .i64 n.toInt
  | .f64 x => .f64 x
  | .string t => .text t.bytes
  | .array elements => .seq (ofElements elements)
  | .object rows => .map (ofRows rows)

/-- The shapes of some elements. -/
def ofElements : List Value → List Shape
  | [] => []
  | v :: elements => ofValue v :: ofElements elements

/-- The entries of some rows. -/
def ofRows : List (Text × Value) → List (Shape × Shape)
  | [] => []
  | (key, v) :: rows => (.text key.bytes, ofValue v) :: ofRows rows

end

/-- The shape of a primitive. Terminated text that is not there is an absent datum. -/
def ofPrimitive : Primitive → Shape
  | .null => .unit
  | .bool b => .bool b
  | .int t n => .int t n
  | .f32 x => .f32 x
  | .f64 x => .f64 x
  | .text content => .text content
  | .terminated none => .absent
  | .terminated (some content) => .text content.untilZero

end Shape

end JsonTree
