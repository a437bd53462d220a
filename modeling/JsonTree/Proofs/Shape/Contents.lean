import JsonTree.Shape.Encode

/-!
# Encoding contents

The encoder without what it keeps beside the contents. What the encoder gives has the contents that
are found here, so that no index need be looked at where the meaning of a shape is concerned.

## Main definitions

- `Shape.contentsAt`: the contents of a shape at a depth.
-/

namespace JsonTree

namespace Shape

/-- The contents of an object with one member. -/
def singleContents (name : Bytes) (v : Value) : Value := .object [(.owned name, v)]

/-- Store a member among contents. -/
def storeContents (o : Object Bytes Value) (key : Bytes) (v : Value) : Object Bytes Value :=
  (o.insert (.owned key) v).2

mutual

/-- The contents of a shape at a depth. -/
def contentsAt (limit depth : Nat) : Shape → Except EncodeError Value
  | .bool b => .ok (.bool b)
  | .int _ n => .ok (.ofInt n)
  | .f32 x => .ok (.f64 x.toSingle)
  | .f64 x => .ok (.f64 x)
  | .char code => .ok (.string (.owned (Utf8.encodeScalar code.toNat)))
  | .text content => .ok (.string (.owned content))
  | .bytes content => do
    let _ ← descend limit depth
    .ok (.array (content.map fun b => .ofInt b.toNat))
  | .unit | .unitStruct | .absent => .ok .null
  | .present datum => contentsAt limit depth datum
  | .newtypeStruct datum => contentsAt limit depth datum
  | .unitVariant name => .ok (.string (.owned name))
  | .newtypeVariant name datum => do
    let inner ← descend limit depth
    singleContents name <$> contentsAt limit inner datum
  | .seq elements | .tuple elements | .tupleStruct elements => do
    let inner ← descend limit depth
    .array <$> contentsElements limit inner elements
  | .tupleVariant name elements => do
    let outer ← descend limit depth
    let inner ← descend limit outer
    (fun vs => singleContents name (.array vs)) <$> contentsElements limit inner elements
  | .map entries => do
    let inner ← descend limit depth
    (fun o => .object o.rows) <$> contentsEntries limit inner .empty entries
  | .struct fields => do
    let inner ← descend limit depth
    (fun o => .object o.rows) <$> contentsFields limit inner .empty fields
  | .structVariant name fields => do
    let outer ← descend limit depth
    let inner ← descend limit outer
    (fun o => singleContents name (.object o.rows)) <$> contentsFields limit inner .empty fields
  | .depth => .ok (.ofInt depth)

/-- The contents of some elements, in order. -/
def contentsElements (limit depth : Nat) : List Shape → Except EncodeError (List Value)
  | [] => .ok []
  | s :: elements => do
    let v ← contentsAt limit depth s
    let vs ← contentsElements limit depth elements
    .ok (v :: vs)

/-- The contents of some entries, stored in order. The key of an entry comes before its value. -/
def contentsEntries (limit depth : Nat) (o : Object Bytes Value) :
    List (Shape × Shape) → Except EncodeError (Object Bytes Value)
  | [] => .ok o
  | (k, s) :: entries => do
    let key ← k.key
    let v ← contentsAt limit depth s
    contentsEntries limit depth (storeContents o key v) entries

/-- The contents of some fields, stored in order. -/
def contentsFields (limit depth : Nat) (o : Object Bytes Value) :
    List (Bytes × Shape) → Except EncodeError (Object Bytes Value)
  | [] => .ok o
  | (name, s) :: fields => do
    let v ← contentsAt limit depth s
    contentsFields limit depth (storeContents o name v) fields

end

end Shape

end JsonTree
