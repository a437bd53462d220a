import JsonTree.Binary64

/-!
# Numbers

A number is a 64-bit integer or a double. The two kinds never compare equal, whatever their values.

## Main definitions

- `Number`: an integer or a double.
- `Number.equals`: comparison within a kind.
- `IntType`: the fixed-width integer types and their ranges.
-/

namespace JsonTree

/-- A number: a signed 64-bit integer or a double. -/
inductive Number where
  | i64 (n : Int64)
  | f64 (x : Binary64)
deriving DecidableEq

namespace Number

/-- Equal kinds and equal numbers. -/
def equals : Number → Number → Bool
  | .i64 m, .i64 n => m == n
  | .f64 x, .f64 y => x.equals y
  | _, _ => false

end Number

/-- The fixed-width integer types. -/
inductive IntType where
  | i8 | i16 | i32 | i64 | u8 | u16 | u32 | u64
deriving DecidableEq

namespace IntType

/-- Whether the type holds negative numbers. -/
def isSigned : IntType → Bool
  | .i8 | .i16 | .i32 | .i64 => true
  | .u8 | .u16 | .u32 | .u64 => false

/-- The width in bits. -/
def width : IntType → Nat
  | .i8 | .u8 => 8
  | .i16 | .u16 => 16
  | .i32 | .u32 => 32
  | .i64 | .u64 => 64

/-- The least number of the type. -/
def least (t : IntType) : Int := if t.isSigned then -Int.pow 2 (t.width - 1) else 0

/-- The greatest number of the type. -/
def greatest (t : IntType) : Int :=
  if t.isSigned then Int.pow 2 (t.width - 1) - 1 else Int.pow 2 t.width - 1

end IntType

end JsonTree
