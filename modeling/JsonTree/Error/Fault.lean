import JsonTree.Error

/-!
# Faults in the input

While a text is read, a failure is a `Fault`: a cause and the offset where it was noticed. Only at
the end is the offset turned into a line and a column, by the bytes before it.

## Main definitions

- `Position.ofOffset`: the line and the column of an offset.
- `Fault.locate`: the error that a fault in a given text is reported as.
-/

namespace JsonTree

/-- A failure at an offset of the text that is being read. -/
structure Fault where
  cause : Cause
  offset : Nat
deriving DecidableEq

/-- Move past one byte: a line feed begins a line, any other byte is one column. -/
def Position.advance (p : Position) (b : UInt8) : Position :=
  if b == Byte.lineFeed then ⟨p.line + 1, 1, p.offset + 1⟩
  else ⟨p.line, p.column + 1, p.offset + 1⟩

/-- The place of an offset, found by moving past the bytes before it. -/
def Position.ofOffset (input : Bytes) (offset : Nat) : Position :=
  (input.take offset).foldl Position.advance ⟨1, 1, 0⟩

namespace Fault

/-- What is said about a fault after its position: the cause, and an unexpected character itself
where the fault is not at the end. -/
def detail (input : Bytes) (f : Fault) : Bytes :=
  let text := Bytes.ofAscii f.cause.message
  match f.cause, input[f.offset]? with
  | .unexpectedCharacter, some b => text ++ Bytes.ofAscii " '" ++ [b] ++ Bytes.ofAscii "'"
  | _, _ => text

/-- The error that a fault in a text is reported as. -/
def locate (input : Bytes) (f : Fault) : ParseError :=
  ⟨f.cause, Position.ofOffset input f.offset, f.detail input⟩

end Fault

end JsonTree
