import JsonTree.Error.Fault
import JsonTree.Number.Collect
import JsonTree.Text.Escape

/-!
# Tokens

A token is one of the six structural bytes, a string with its quotes, or a scalar: a longest run of
bytes that are neither whitespace, nor structural, nor a quote. It carries its offset, its bytes
and what follows it in the input.

A string is unescaped, and a number read, only when its contents are asked for. Both read from the
first byte of the token towards the end of the input, and find by themselves where to stop.

## Main definitions

- `Token`: where a token starts, its bytes and the rest of the input.
- `Token.string`: the text of a string token.
- `Token.number`: the number of a scalar token.
-/

namespace JsonTree

/-- A token of the input. -/
structure Token where
  /-- The offset of the first byte. -/
  offset : Nat
  /-- The bytes of the token. -/
  text : Bytes
  /-- The input after the token. -/
  rest : Bytes
deriving DecidableEq

namespace Token

/-- The input from the first byte of the token on. -/
def tail (t : Token) : Bytes := t.text ++ t.rest

/-- The first byte, which tells what kind of token this is. -/
def head (t : Token) : UInt8 := t.text.headD 0

/-! ## §1 Words -/

/-- The three scalars that are words. -/
def words : List Bytes := [Bytes.ofAscii "true", Bytes.ofAscii "false", Bytes.ofAscii "null"]

/-- Whether the first byte is that of a word. -/
def beginsWord (t : Token) : Bool := t.head == 0x74 || t.head == 0x66 || t.head == 0x6E

/-- Whether the input up to the next delimiter is one of the words. -/
def isWord (t : Token) : Bool := words.contains (t.tail.takeWhile (! Byte.isDelimiter ·))

/-! ## §2 Strings and numbers -/

/-- The text of a string token. -/
def string (t : Token) : Except Fault Text := Text.read (t.offset + 1) (t.tail.drop 1)

/-- Whether what follows a number ends it. At the root that is whitespace or the end of the input;
inside a container it is whitespace or a structural byte. -/
def endsNumber (root : Bool) : Bytes → Bool
  | [] => root
  | b :: _ => Byte.isWhitespace b || (!root && Byte.isStructural b)

/-- The number at a token: the longest literal there, which must be properly ended. -/
def number (root negative : Bool) (t : Token) : Except Fault Number :=
  match Number.read negative t.tail with
  | some (n, rest) => if endsNumber root rest then .ok n else .error ⟨.invalidNumber, t.offset⟩
  | none => .error ⟨.invalidNumber, t.offset⟩

end Token

end JsonTree
