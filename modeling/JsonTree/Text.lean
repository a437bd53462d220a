import JsonTree.Bytes

/-!
# Held text

Strings and keys either borrow their bytes from a source that lives elsewhere or own them. What a
held text says never depends on which of the two it is; whether it is borrowed is kept, because
text taken unchanged from the input is borrowed and text that had to be built is owned.

The source is a parameter. Where it can be read without more ado it is `Readable`, and so are the
bytes themselves: `Text` names a source by what it says. `Buffers` has sources that have a place and
an end, and sources that change.

## Main definitions

- `Held`: borrowed from a source, or owned.
- `Held.bytes`: what a held text says.
- `Text`: held text whose source is its bytes.
- `Representation`: whether values may borrow.
-/

namespace JsonTree

/-- Bytes that are borrowed from a source or owned. -/
inductive Held (σ : Type) where
  /-- Borrowed: the bytes are whatever the source holds. -/
  | borrowed (source : σ)
  /-- Owned, independent of every source. -/
  | owned (bytes : Bytes)
deriving DecidableEq

/-- A source that says by itself what is read there. -/
class Readable (σ : Type) where
  bytes : σ → Bytes

/-- Bytes are read as they are. -/
instance : Readable Bytes := ⟨id⟩

namespace Held

variable {σ : Type}

/-- Whether the bytes are borrowed. -/
def isBorrowed : Held σ → Bool
  | .borrowed _ => true
  | .owned _ => false

/-- The bytes, given what each source holds. -/
def read (contents : σ → Bytes) : Held σ → Bytes
  | .borrowed source => contents source
  | .owned bytes => bytes

/-- The same bytes, owned. -/
def detach (contents : σ → Bytes) (t : Held σ) : Held σ := .owned (t.read contents)

/-- The bytes that a text owns: all of an owned text, none of a borrowed one. -/
def ownedBytes : Held σ → Bytes
  | .borrowed _ => []
  | .owned bytes => bytes

variable [Readable σ]

/-- The bytes of a text. -/
def bytes (t : Held σ) : Bytes := t.read Readable.bytes

/-- The same text, owned. -/
def detached (t : Held σ) : Held σ := .owned t.bytes

end Held

/-- Held text whose source does not change, so that the source is its bytes. -/
abbrev Text := Held Bytes

/-- The two ways to keep a value: with all text owned, or with text borrowed where possible. -/
inductive Representation where
  | owned
  | borrowed
deriving DecidableEq

/-- A text as a representation keeps it. -/
def Representation.keep {σ : Type} [Readable σ] : Representation → Held σ → Held σ
  | .owned, t => t.detached
  | .borrowed, t => t

end JsonTree
