import JsonTree.Error
import JsonTree.Live

/-!
# Containers among live values

Elements of arrays and members of objects are looked up, stored and taken out. Members are found
through the index of the object that holds them. Changing a value of the wrong kind is an error and
leaves the value alone.

## Main definitions

- `Live.get?`, `Live.getIdx?`: members and elements.
- `Live.insert`, `Live.remove`, `Live.push`, `Live.pop`: changes of a container.
-/

namespace JsonTree.Live

/-- The elements of an array. -/
def asArray : Live → Option (List Live)
  | .array elements => some elements
  | _ => none

/-- The object that this is. -/
def asObject : Live → Option (Object Slice Live)
  | .object rows storage => some ⟨storage, rows⟩
  | _ => none

/-- The number of elements or members; zero for an atom. -/
def size : Live → Nat
  | .array elements => elements.length
  | .object rows _ => rows.length
  | _ => 0

/-- The member under a key. -/
def get? (v : Live) (key : Bytes) : Option Live := do
  let o ← v.asObject
  o.get? key

/-- The element at an index. -/
def getIdx? (v : Live) (i : Nat) : Option Live := do
  let elements ← v.asArray
  elements[i]?

/-- Store a member, and tell the value that it replaces. -/
def insert (v : Live) (key : Held Slice) (member : Live) :
    Except AccessError (Option Live × Live) :=
  match v with
  | .object rows storage =>
    let (old, o) := Object.insert ⟨storage, rows⟩ key member
    .ok (old, .ofObject o)
  | _ => .error ⟨.notAnObject⟩

/-- Take a member out, and tell its value. -/
def remove (v : Live) (key : Bytes) : Except AccessError (Option Live × Live) :=
  match v with
  | .object rows storage =>
    let (old, o) := Object.remove ⟨storage, rows⟩ key
    .ok (old, .ofObject o)
  | _ => .error ⟨.notAnObject⟩

/-- Add an element at the end. -/
def push (v element : Live) : Except AccessError Live :=
  match v with
  | .array elements => .ok (.array (elements ++ [element]))
  | _ => .error ⟨.notAnArray⟩

/-- Take the last element out, and tell it. -/
def pop (v : Live) : Except AccessError (Option Live × Live) :=
  match v with
  | .array elements => .ok (elements.getLast?, .array elements.dropLast)
  | _ => .error ⟨.notAnArray⟩

end JsonTree.Live
