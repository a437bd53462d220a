import JsonTree.Text

/-!
# Buffers that text borrows from

A store of byte buffers, named by number. A buffer lives as long as it has holders, and a text
borrows from a place in a buffer that has a name. Where the contents of a buffer change after text
was borrowed from it, a borrowed text shows the change and an owned one does not.

## Main definitions

- `Slice`: a place in a buffer, with the bytes that were found there.
- `Buffers`: the store; `Buffers.add`, `Buffers.hold`, `Buffers.release`, `Buffers.poke`,
  `Buffers.bytes?` and `Buffers.contents` act on it.
-/

namespace JsonTree

/-- A place in a buffer. -/
structure Slice where
  /-- The name of the buffer. -/
  buffer : Nat
  /-- The offset of the first byte. -/
  start : Nat
  /-- The bytes that the buffer held there when the slice was taken. -/
  bytes : Bytes
deriving DecidableEq

/-- A slice of a buffer that does not change reads what it read when it was taken. -/
instance : Readable Slice := ⟨Slice.bytes⟩

/-- The text that says the same, with the source named by its bytes. -/
def Held.text {σ : Type} [Readable σ] : Held σ → Text
  | .borrowed source => .borrowed (Readable.bytes source)
  | .owned bytes => .owned bytes

/-- A text whose bytes stand in a buffer from an offset on, if it borrows them. -/
def Held.placed (buffer start : Nat) : Text → Held Slice
  | .borrowed bytes => .borrowed ⟨buffer, start, bytes⟩
  | .owned bytes => .owned bytes

/-- A buffer and the number of those who hold it. -/
structure Buffer where
  bytes : Bytes
  holders : Nat
deriving DecidableEq

/-- A store of byte buffers; a buffer is named by its place. -/
structure Buffers where
  /-- The buffers, in the order in which they were added. -/
  all : List Buffer

namespace Buffers

/-- The store without buffers. -/
def empty : Buffers := ⟨[]⟩

/-- What a buffer holds, as long as it lives. -/
def bytes? (s : Buffers) (name : Nat) : Option Bytes := do
  let b ← s.all[name]?
  if b.holders = 0 then none else some b.bytes

/-- What a buffer holds; nothing, where there is no such buffer. -/
def contents (s : Buffers) (name : Nat) : Bytes := (s.bytes? name).getD []

/-- Add a buffer with one holder. Its name comes first. -/
def add (s : Buffers) (bytes : Bytes) : Nat × Buffers := (s.all.length, ⟨s.all ++ [⟨bytes, 1⟩]⟩)

/-- One more holds a buffer. -/
def hold (s : Buffers) (name : Nat) : Buffers :=
  ⟨s.all.modify name fun b => { b with holders := b.holders + 1 }⟩

/-- One less holds a buffer. -/
def release (s : Buffers) (name : Nat) : Buffers :=
  ⟨s.all.modify name fun b => { b with holders := b.holders - 1 }⟩

/-- Overwrite the first byte of a buffer; an empty buffer stays empty. -/
def poke (s : Buffers) (name : Nat) (byte : UInt8) : Buffers :=
  ⟨s.all.modify name fun b => { b with bytes := b.bytes.set 0 byte }⟩

end Buffers

end JsonTree
