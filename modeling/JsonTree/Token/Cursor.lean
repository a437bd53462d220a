import JsonTree.Token.Outline

/-!
# A cursor over the outline

The cursor stands between two tokens. It moves past them one by one, and answers questions about
the token it has passed last: its count, its text, its number. Past the last token it reads zero
bytes, and a fault there lies at the end of the input.

## Main definitions

- `Cursor.ofInput`: the cursor before the first token of a well-formed input.
- `Cursor.next`, `Cursor.skip`: moving on.
- `Cursor.count`, `Cursor.string`, `Cursor.number`, `Cursor.fault`: the token passed last.
-/

namespace JsonTree

open Outline (Item)

/-- A place between two tokens. -/
structure Cursor where
  /-- The size of the input, where faults past the last token lie. -/
  size : Nat
  /-- The token passed last; none at the start and past the end. -/
  last : Option Item
  /-- The tokens ahead. -/
  rest : List Item

namespace Cursor

/-- The cursor before the first token, if the tokens of the input form a single value. -/
def ofInput (input : Bytes) : Except Fault Cursor := do
  let tokens ← Token.scan input
  let items ← Token.outline input.length tokens
  .ok ⟨input.length, none, items⟩

/-- Move past a token. -/
def skip (c : Cursor) : Cursor := { c with last := c.rest.head?, rest := c.rest.tail }

/-- The first byte of the token passed last. -/
def byte (c : Cursor) : UInt8 := c.last.elim 0 (·.token.head)

/-- Move past a token and tell its first byte. -/
def next (c : Cursor) : UInt8 × Cursor := (c.skip.byte, c.skip)

/-- How many elements or members the container holds that was opened last. -/
def count (c : Cursor) : Nat := c.last.elim 0 (·.count)

/-- The fault of a cause at the token passed last. -/
def fault (c : Cursor) (cause : Cause) : Fault := ⟨cause, c.last.elim c.size (·.token.offset)⟩

/-- The text of the string passed last. -/
def string (c : Cursor) : Except Fault Text :=
  match c.last with
  | some item => item.token.string
  | none => .error (c.fault .unexpectedCharacter)

/-- The number passed last. -/
def number (c : Cursor) (root negative : Bool) : Except Fault Number :=
  match c.last with
  | some item => item.token.number root negative
  | none => .error (c.fault .invalidNumber)

end Cursor

end JsonTree
