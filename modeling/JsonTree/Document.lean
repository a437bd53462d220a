import JsonTree.Decode
import JsonTree.Live.Access

/-!
# Documents

A document keeps a value together with the buffer that it was decoded from, so that the value may
borrow from it. The two change together: a text that cannot be decoded changes neither. Copies of a
document share its buffer, which lives as long as some document holds it.

## Main definitions

- `Document`: a root and the name of its buffer.
- `Documents`: documents by number, and the buffers that they hold.
- `Documents.parse`, `Documents.tryParse`, `Documents.reset`: decode a text into a document, and
  forget it.
- `Documents.copy`: make a document a copy of another one.
- `Documents.insert`, `Documents.push`: change a root.
-/

namespace JsonTree

namespace Buffers

/-- One more holds a buffer, if there is one. -/
def holdAny (s : Buffers) (name : Option Nat) : Buffers := name.elim s s.hold

/-- One less holds a buffer, if there is one. -/
def releaseAny (s : Buffers) (name : Option Nat) : Buffers := name.elim s s.release

end Buffers

/-- A value and the buffer that it borrows from, if there is one. -/
structure Document where
  buffer : Option Nat
  root : Live

/-- The document before anything was decoded. -/
def Document.empty : Document := ⟨none, .null⟩

/-- Documents by number, and the buffers that they hold. -/
structure Documents where
  buffers : Buffers
  all : Nat → Document

namespace Documents

/-- Documents before anything was decoded. -/
def empty : Documents := ⟨.empty, fun _ => .empty⟩

/-- The bytes of the buffer of a document; none before anything was decoded. -/
def bytes (s : Documents) (i : Nat) : Bytes := (s.all i).buffer.elim [] s.buffers.contents

/-- Put another document in the place of one. -/
def put (s : Documents) (i : Nat) (d : Document) : Documents :=
  { s with all := fun j => if j = i then d else s.all j }

/-- Decode a text into a document. It is decoded from a new buffer. On success root and buffer are
replaced together and the old buffer is released; on failure the document is as it was, and the new
buffer is released. -/
def parse (s : Documents) (i requested : Nat) (input : Bytes) :
    Except ParseError Unit × Documents :=
  let (name, buffers) := s.buffers.add input
  match Live.decode .borrowed name requested (buffers.contents name) with
  | .ok root =>
    (.ok (), put { s with buffers := buffers.releaseAny (s.all i).buffer } i ⟨some name, root⟩)
  | .error e => (.error e, { s with buffers := buffers.release name })

/-- Decode a text into a document, and tell the cause if it fails. -/
def tryParse (s : Documents) (i requested : Nat) (input : Bytes) : Option Cause × Documents :=
  match s.parse i requested input with
  | (.ok (), s) => (none, s)
  | (.error e, s) => (some e.cause, s)

/-- Forget the value of a document, and release its buffer. -/
def reset (s : Documents) (i : Nat) : Documents :=
  put { s with buffers := s.buffers.releaseAny (s.all i).buffer } i .empty

/-- Make a document a copy of another one, with which it shares the buffer from then on. -/
def copy (s : Documents) (i source : Nat) : Documents :=
  if i = source then s
  else
    let d := s.all source
    let buffers := (s.buffers.holdAny d.buffer).releaseAny (s.all i).buffer
    put { s with buffers } i ⟨d.buffer, d.root.copied⟩

/-- Change the root of a document, and leave the buffer. -/
def changeRoot {ε α : Type} (s : Documents) (i : Nat) (change : Live → Except ε (α × Live)) :
    Except ε α × Documents :=
  match change (s.all i).root with
  | .ok (answer, root) => (.ok answer, s.put i ⟨(s.all i).buffer, root⟩)
  | .error e => (.error e, s)

/-- Store a member of a root under an owned key, and tell the value that it replaces. -/
def insert (s : Documents) (i : Nat) (key : Bytes) (member : Live) :
    Except AccessError (Option Live) × Documents :=
  s.changeRoot i (·.insert (.owned key) member)

/-- Add an element to a root. -/
def push (s : Documents) (i : Nat) (element : Live) : Except AccessError Unit × Documents :=
  s.changeRoot i fun root => (((), ·)) <$> root.push element

end Documents

end JsonTree
