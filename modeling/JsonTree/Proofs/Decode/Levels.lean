import JsonTree.Decode

/-!
# Reading contents level by level

The walk of the decoder without what it keeps beside the contents: no index, no buffers, and instead
of a counter the number of levels that are left. What the decoder gives is what this walk gives, so
that nothing but contents and cursors need be looked at where a decoded text is concerned.

## Main definitions

- `Decode.readValue`: the contents at the cursor, with the containers that may still be opened.
- `Decode.readInput`: the contents of a text.
-/

namespace JsonTree

namespace Decode

/-- Reading at a cursor: what was read and the cursor after it. -/
abbrev Reader (α : Type) := Cursor → Except Fault (α × Cursor)

/-- Read a number of elements, each with the token that ends it. -/
def readElements (readElement : Reader Value) : Nat → Reader (List Value)
  | 0, c => .ok ([], c)
  | n + 1, c => do
    let (v, c) ← readElement c
    let (elements, c) ← readElements readElement n c.skip
    .ok (v :: elements, c)

/-- Read a number of members, each with its colon and the token that ends it. The text of a key is
taken before its value is read. -/
def readMembers (form : Representation) (readMember : Reader Value) :
    Nat → Reader (List (Text × Value))
  | 0, c => .ok ([], c)
  | n + 1, c => do
    let c := c.skip
    let key ← c.string
    let (v, c) ← readMember c.skip
    let (rows, c) ← readMembers form readMember n c.skip
    .ok ((form.keep key, v) :: rows, c)

/-- Read an atom: a string, a number or a word, told apart by the first byte. -/
def readAtom (form : Representation) (root : Bool) (b : UInt8) (c : Cursor) : Except Fault Value :=
  if b == Byte.minus then .ofNumber <$> c.number root true
  else if Byte.isDigit b then .ofNumber <$> c.number root false
  else if b == Byte.quote then (fun t => .string (form.keep t)) <$> c.string
  else if b == 0x6E then .ok .null
  else if b == 0x74 then .ok (.bool true)
  else if b == 0x66 then .ok (.bool false)
  else .error (c.fault .unexpectedCharacter)

/-- Read a value, where up to `levels` containers may be opened inside one another. A bracket beyond
them is at fault even if its container is empty. -/
def readValue (form : Representation) : Nat → Bool → Reader Value
  | levels, root, c =>
    let (b, c) := c.next
    if b == Byte.openArray then
      match levels with
      | 0 => .error (c.fault .depthExceeded)
      | levels + 1 =>
        if c.count = 0 then .ok (.array [], c.skip)
        else do
          let (elements, c) ← readElements (readValue form levels false) c.count c
          .ok (.array elements, c)
    else if b == Byte.openObject then
      match levels with
      | 0 => .error (c.fault .depthExceeded)
      | levels + 1 =>
        if c.count = 0 then .ok (.object [], c.skip)
        else do
          let (rows, c) ← readMembers form (readValue form levels false) c.count c
          .ok (.object (Object.collect rows).rows, c)
    else do
      let v ← readAtom form root b c
      .ok (v, c)

/-- The value of a text, or the first fault in it. -/
def readInput (form : Representation) (requested : Nat) (input : Bytes) : Except Fault Value := do
  let c ← Cursor.ofInput input
  let (v, _) ← readValue form (effectiveDepth requested) true c
  .ok v

end Decode

end JsonTree
