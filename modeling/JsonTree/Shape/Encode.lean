import JsonTree.Limit
import JsonTree.Live
import JsonTree.Shape.Key
import JsonTree.Utf8

/-!
# Encoding

A shape is encoded as a value. Scalars become the value of their kind, optional and wrapped data are
transparent, sequences become arrays, and maps and structs become objects, where a repeated key
keeps its place and takes the later value. A variant becomes its name, or an object whose one
member has that name. Every container that is opened counts towards the depth limit, the object
around a variant included, and fails at the moment it is opened.

## Main definitions

- `Shape.encodeAt`: the value of a shape at a depth.
- `Live.encode`, `encode`: the value of a shape at the root, and its contents.
-/

namespace JsonTree

/-- The failure of a container beyond the limit. -/
def EncodeError.depthExceeded (limit : Nat) : EncodeError :=
  ⟨.depthExceeded, some (Bytes.ofAscii "encode depth exceeds " ++ Bytes.ofNat limit)⟩

namespace Shape

/-- The depth inside a container that is opened at a depth. -/
def descend (limit depth : Nat) : Except EncodeError Nat :=
  if limit < depth + 1 then .error (.depthExceeded limit) else .ok (depth + 1)

/-- An object with one member. -/
def single (name : Bytes) (v : Live) : Live := .ofObject (Object.empty.append (.owned name) v)

/-- Store a member that has been encoded. -/
def store (o : Object Slice Live) (key : Bytes) (v : Live) : Object Slice Live :=
  (o.insert (.owned key) v).2

mutual

/-- The value of a shape at a depth. -/
def encodeAt (limit depth : Nat) : Shape → Except EncodeError Live
  | .bool b => .ok (.bool b)
  | .int _ n => .ok (.ofInt n)
  | .f32 x => .ok (.f64 x.toSingle)
  | .f64 x => .ok (.f64 x)
  | .char code => .ok (.string (.owned (Utf8.encodeScalar code.toNat)))
  | .text content => .ok (.string (.owned content))
  | .bytes content => do
    let _ ← descend limit depth
    .ok (.array (content.map fun b => .ofInt b.toNat))
  | .unit | .unitStruct | .absent => .ok .null
  | .present datum => encodeAt limit depth datum
  | .newtypeStruct datum => encodeAt limit depth datum
  | .unitVariant name => .ok (.string (.owned name))
  | .newtypeVariant name datum => do
    let inner ← descend limit depth
    single name <$> encodeAt limit inner datum
  | .seq elements | .tuple elements | .tupleStruct elements => do
    let inner ← descend limit depth
    .array <$> encodeElements limit inner elements
  | .tupleVariant name elements => do
    let outer ← descend limit depth
    let inner ← descend limit outer
    (fun vs => single name (.array vs)) <$> encodeElements limit inner elements
  | .map entries => do
    let inner ← descend limit depth
    .ofObject <$> encodeEntries limit inner .empty entries
  | .struct fields => do
    let inner ← descend limit depth
    .ofObject <$> encodeFields limit inner .empty fields
  | .structVariant name fields => do
    let outer ← descend limit depth
    let inner ← descend limit outer
    (fun o => single name (.ofObject o)) <$> encodeFields limit inner .empty fields
  | .depth => .ok (.ofInt depth)

/-- The values of some elements, in order. -/
def encodeElements (limit depth : Nat) : List Shape → Except EncodeError (List Live)
  | [] => .ok []
  | s :: elements => do
    let v ← encodeAt limit depth s
    let vs ← encodeElements limit depth elements
    .ok (v :: vs)

/-- Store some entries in an object, in order. The key of an entry comes before its value. -/
def encodeEntries (limit depth : Nat) (o : Object Slice Live) :
    List (Shape × Shape) → Except EncodeError (Object Slice Live)
  | [] => .ok o
  | (k, s) :: entries => do
    let key ← k.key
    let v ← encodeAt limit depth s
    encodeEntries limit depth (store o key v) entries

/-- Store some fields in an object, in order. -/
def encodeFields (limit depth : Nat) (o : Object Slice Live) :
    List (Bytes × Shape) → Except EncodeError (Object Slice Live)
  | [] => .ok o
  | (name, s) :: fields => do
    let v ← encodeAt limit depth s
    encodeFields limit depth (store o name v) fields

end

end Shape

/-- The live value of a shape, within a requested depth. -/
def Live.encode (requested : Nat) (s : Shape) : Except EncodeError Live :=
  s.encodeAt (effectiveDepth requested) 0

/-- The contents of a shape, within a requested depth. -/
def encode (requested : Nat) (s : Shape) : Except EncodeError Value :=
  Live.contents <$> Live.encode requested s

end JsonTree
