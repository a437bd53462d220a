import JsonTree.Error
import JsonTree.Value.Access

/-!
# Lookups and changes of contents

What lookups and changes of a value come to where each object is searched by its rows alone, as one
that has no index is. Live values do the same as long as no index in them is stale.

A path resolves only where every step finds something. A part can be changed in place: the steps
above it are rebuilt around the new part and nothing else changes.

## Main definitions

- `Value.get?`, `Value.getIdx?`: members and elements.
- `Value.insert`, `Value.remove`, `Value.push`, `Value.pop`: changes of a container.
- `Value.at?`: the part that a path leads to.
- `Value.modifyAt?`, `Value.modifyAt`: the value with that part changed, if it can be.
-/

namespace JsonTree.Value

/-! ## §1 Containers -/

/-- The elements of an array. -/
def asArray : Value → Option (List Value)
  | .array elements => some elements
  | _ => none

/-- The object with the rows of this value. -/
def asObject : Value → Option (Object Bytes Value)
  | .object rows => some (.ofRows rows)
  | _ => none

/-- The number of elements or members; zero for an atom. -/
def size : Value → Nat
  | .array elements => elements.length
  | .object rows => rows.length
  | _ => 0

/-- The member under a key. -/
def get? (v : Value) (key : Bytes) : Option Value := do
  let o ← v.asObject
  o.get? key

/-- The element at an index. -/
def getIdx? (v : Value) (i : Nat) : Option Value := do
  let elements ← v.asArray
  elements[i]?

/-! ## §2 Changes -/

/-- Store a member, and tell the value that it replaces. -/
def insert (v : Value) (key : Text) (member : Value) : Except AccessError (Option Value × Value) :=
  match v with
  | .object rows =>
    let (old, o) := (Object.ofRows rows).insert key member
    .ok (old, .object o.rows)
  | _ => .error ⟨.notAnObject⟩

/-- Take a member out, and tell its value. -/
def remove (v : Value) (key : Bytes) : Except AccessError (Option Value × Value) :=
  match v with
  | .object rows =>
    let (old, o) := (Object.ofRows rows).remove key
    .ok (old, .object o.rows)
  | _ => .error ⟨.notAnObject⟩

/-- Add an element at the end. -/
def push (v element : Value) : Except AccessError Value :=
  match v with
  | .array elements => .ok (.array (elements ++ [element]))
  | _ => .error ⟨.notAnArray⟩

/-- Take the last element out, and tell it. -/
def pop (v : Value) : Except AccessError (Option Value × Value) :=
  match v with
  | .array elements => .ok (elements.getLast?, .array elements.dropLast)
  | _ => .error ⟨.notAnArray⟩

/-! ## §3 Paths -/

/-- The part that one step leads to. -/
def step? (v : Value) : Step → Option Value
  | .key bytes => v.get? bytes
  | .index i => v.getIdx? i

/-- The value with the part that a step leads to replaced by another. -/
def replaceStep (v : Value) (part : Value) : Step → Value
  | .key bytes =>
    match v with
    | .object rows => .object ((Object.ofRows rows).modify bytes fun _ => part).rows
    | v => v
  | .index i =>
    match v with
    | .array elements => .array (elements.set i part)
    | v => v

/-- The part that a path leads to. -/
def at? (v : Value) : List Step → Option Value
  | [] => some v
  | step :: path => do
    let part ← v.step? step
    part.at? path

/-- The value with the part that a path leads to changed; none where the path does not resolve. -/
def modifyAt? {ε α : Type} (v : Value) (change : Value → Except ε (α × Value)) :
    List Step → Option (Except ε (α × Value))
  | [] => some (change v)
  | step :: path => do
    let part ← v.step? step
    let changed ← part.modifyAt? change path
    some (changed.map fun (answer, part) => (answer, v.replaceStep part step))

/-- Change the part that a path leads to: what the change gives, unless the path does not resolve,
and the value afterwards. -/
def modifyAt {ε α : Type} (v : Value) (change : Value → Except ε (α × Value)) (path : List Step) :
    Option (Except ε α) × Value :=
  match v.modifyAt? change path with
  | none => (none, v)
  | some (.error e) => (some (.error e), v)
  | some (.ok (answer, v')) => (some (.ok answer), v')

end JsonTree.Value
