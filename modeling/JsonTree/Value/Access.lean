import JsonTree.Value

/-!
# Reading atoms

Each accessor answers for one type, and only where the value is of that type without loss: integers
are narrowed only within range, and integers and doubles are never mistaken for each other. A value
equals a primitive when the accessor of its type gives that primitive.

## Main definitions

- `Value.asInt`, `Value.asF64`, `Value.asText` and the other accessors.
- `Value.equalsPrimitive`, `Value.differsPrimitive`: comparison with a primitive.
-/

namespace JsonTree.Value

/-! ## §1 Accessors -/

/-- The boolean. -/
def asBool : Value → Option Bool
  | .bool b => some b
  | _ => none

/-- The integer. -/
def asI64 : Value → Option Int64
  | .i64 n => some n
  | _ => none

/-- The integer, unless it is negative. -/
def asU64 : Value → Option UInt64
  | .i64 n => if 0 ≤ n then some n.toUInt64 else none
  | _ => none

/-- The integer, if an integer type can hold it. Signed types read signed integers, the others
unsigned ones. -/
def asInt (t : IntType) (v : Value) : Option Int :=
  if t.isSigned then do
    let n ← v.asI64
    if t.least ≤ n.toInt ∧ n.toInt ≤ t.greatest then some n.toInt else none
  else do
    let n ← v.asU64
    if (n.toNat : Int) ≤ t.greatest then some n.toNat else none

/-- The double; an integer is none. -/
def asF64 : Value → Option Binary64
  | .f64 x => some x
  | _ => none

/-- The double, or the one nearest to the integer. -/
def castF64 : Value → Option Binary64
  | .f64 x => some x
  | .i64 n => some (.ofInt n.toInt)
  | _ => none

/-- The double as a single-precision number, if it lies within the finite range. -/
def asF32 (v : Value) : Option Binary64 := do
  let x ← v.asF64
  if x.fitsSingle then some x.toSingle else none

/-- The bytes of the text. -/
def asText : Value → Option Bytes
  | .string t => some t.bytes
  | _ => none

/-- Whether this is a text that borrows its bytes. -/
def isBorrowed : Value → Bool
  | .string t => t.isBorrowed
  | _ => false

/-! ## §2 Comparison with primitives -/

/-- Whether the accessor of the primitive's type gives the primitive. -/
def equalsPrimitive (v : Value) : Primitive → Bool
  | .null => v.kind == .null
  | .bool b => v.asBool == some b
  | .int t n => v.asInt t == some n
  | .f32 x => v.asF32.any (·.equals x.toSingle)
  | .f64 x => v.asF64.any (·.equals x)
  | .text bytes => v.asText == some bytes
  | .terminated bytes => v.asText == some (bytes.getD []).untilZero

/-- Whether it does not. -/
def differsPrimitive (v : Value) (p : Primitive) : Bool := !v.equalsPrimitive p

/-- Comparison with the primitive on the left. -/
def primitiveEquals (p : Primitive) (v : Value) : Bool := v.equalsPrimitive p

/-- Difference with the primitive on the left. -/
def primitiveDiffers (p : Primitive) (v : Value) : Bool := v.differsPrimitive p

end JsonTree.Value
