/-!
# Byte strings

Input, strings, keys and messages are lists of bytes. Nothing in this library asks that they be
valid UTF-8: offsets, columns and sizes count bytes.

## Main definitions

- `Bytes`: a byte string.
- `Byte.isWhitespace`, `Byte.isStructural`, `Byte.isDigit`: the byte classes of JSON text.
- `Bytes.ofAscii`, `Bytes.ofNat`: the bytes of a message and of a decimal numeral.
- `Bytes.overwrite`: writing over the beginning of a byte string.
- `Bytes.order`: byte-wise comparison.
-/

namespace JsonTree

/-- A byte string. -/
abbrev Bytes := List UInt8

/-! ## §1 Single bytes -/

namespace Byte

/-- The double quote, which opens and closes a string. -/
abbrev quote : UInt8 := 0x22

/-- The backslash, which begins an escape. -/
abbrev backslash : UInt8 := 0x5C

/-- The minus sign. -/
abbrev minus : UInt8 := 0x2D

/-- The line feed, which ends a line. -/
abbrev lineFeed : UInt8 := 0x0A

/-- The comma between elements or members. -/
abbrev comma : UInt8 := 0x2C

/-- The colon between a key and its value. -/
abbrev colon : UInt8 := 0x3A

/-- The bracket that opens an array. -/
abbrev openArray : UInt8 := 0x5B

/-- The bracket that closes an array. -/
abbrev closeArray : UInt8 := 0x5D

/-- The brace that opens an object. -/
abbrev openObject : UInt8 := 0x7B

/-- The brace that closes an object. -/
abbrev closeObject : UInt8 := 0x7D

/-- Space, tab, line feed and carriage return. -/
def isWhitespace (b : UInt8) : Bool :=
  b == 0x20 || b == 0x09 || b == 0x0A || b == 0x0D

/-- The six bytes that are tokens by themselves. -/
def isStructural (b : UInt8) : Bool :=
  b == openObject || b == closeObject || b == openArray || b == closeArray ||
    b == colon || b == comma

/-- The bytes that end an unquoted token. -/
def isDelimiter (b : UInt8) : Bool :=
  isWhitespace b || isStructural b || b == quote

/-- The decimal digits. -/
def isDigit (b : UInt8) : Bool := 0x30 ≤ b && b ≤ 0x39

/-- The bytes at which a run of raw string contents stops. -/
def endsRun (b : UInt8) : Bool := b == quote || b == backslash

end Byte

/-! ## §2 Byte strings -/

namespace Bytes

/-- The bytes of an ASCII text. -/
def ofAscii (s : String) : Bytes := s.toList.map Char.toUInt8

/-- The decimal numeral of a natural number. -/
def ofNat (n : Nat) : Bytes := ofAscii (toString n)

/-- What is left after leading whitespace. -/
def skipWhitespace (bs : Bytes) : Bytes := bs.dropWhile Byte.isWhitespace

/-- The run of bytes before the first quote or backslash. -/
def takeRun (bs : Bytes) : Bytes := bs.takeWhile (! Byte.endsRun ·)

/-- What is left from the first quote or backslash on. -/
def skipRun (bs : Bytes) : Bytes := bs.dropWhile (! Byte.endsRun ·)

/-- The bytes before the first zero byte, which is as far as a terminated text is read. -/
def untilZero (bs : Bytes) : Bytes := bs.takeWhile (· != 0)

/-- Put bytes at the beginning of others, which keep their number. -/
def overwrite (old new : Bytes) : Bytes := new.take old.length ++ old.drop new.length

/-- Byte-wise comparison: by the first byte that differs, and a proper beginning comes first. -/
def order : Bytes → Bytes → Ordering
  | [], [] => .eq
  | [], _ :: _ => .lt
  | _ :: _, [] => .gt
  | a :: as, b :: bs => (compare a b).then (order as bs)

end Bytes

end JsonTree
