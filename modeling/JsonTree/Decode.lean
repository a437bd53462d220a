import JsonTree.Limit
import JsonTree.Live
import JsonTree.Token.Cursor

/-!
# Decoding

A value is read by walking the cursor over the outline of the input. The walk trusts the outline: a
container is read by its count, and commas, colons and closing brackets are passed over unread.
What the outline did not check, escapes, numbers, unknown scalars and depth, is checked on the way,
so the first fault in the order of the input is the one reported. The walk counts the containers
that are open: one more at each opening bracket, and one less when its container was read.

Members are gathered in an object as they come, checked even if a later member has the same key, and
repeated keys are dropped at the end.

## Main definitions

- `Decode.State`: where the walk stands.
- `Decode.parseValue`: the value at the cursor.
- `Live.decode`, `decode`: the value of a text, and its contents.
-/

namespace JsonTree

namespace Decode

/-! ## §1 The walk -/

/-- Where the walk stands. -/
structure State where
  cursor : Cursor
  /-- How many containers are open. -/
  depth : Nat

namespace State

/-- Move past a token and tell its first byte. -/
def next (s : State) : UInt8 × State := (s.cursor.next.1, { s with cursor := s.cursor.next.2 })

/-- Move past a token. -/
def skip (s : State) : State := { s with cursor := s.cursor.skip }

/-- One more container is open. One too many is at fault at its bracket. -/
def pushDepth (limit : Nat) (s : State) : Except Fault State :=
  if limit < s.depth + 1 then .error (s.cursor.fault .depthExceeded)
  else .ok { s with depth := s.depth + 1 }

/-- One container less is open. -/
def popDepth (s : State) : State := { s with depth := s.depth - 1 }

end State

/-- What a walk is asked for. -/
structure Request where
  /-- How values are kept. -/
  form : Representation
  /-- The name of the buffer that the input is in. -/
  buffer : Nat
  /-- How many containers may be open at once. -/
  limit : Nat

/-- A part of the walk: what was read and where the walk stands after it. -/
abbrev Parser (α : Type) := State → Except Fault (α × State)

/-! ## §2 Values -/

/-- The text of the string passed last, as it is kept. Its contents begin behind the quote. -/
def parseString (r : Request) (c : Cursor) : Except Fault (Held Slice) :=
  (fun t => r.form.keep (.placed r.buffer (c.last.elim 0 (·.token.offset + 1)) t)) <$> c.string

/-- Read an atom: a string, a number or a word, told apart by the first byte. -/
def parseAtom (r : Request) (root : Bool) (b : UInt8) (c : Cursor) : Except Fault Live :=
  if b == Byte.minus then .ofNumber <$> c.number root true
  else if Byte.isDigit b then .ofNumber <$> c.number root false
  else if b == Byte.quote then .string <$> parseString r c
  else if b == 0x6E then .ok .null
  else if b == 0x74 then .ok (.bool true)
  else if b == 0x66 then .ok (.bool false)
  else .error (c.fault .unexpectedCharacter)

/-- Read a number of elements, each with the token that ends it. -/
def parseElements (parseElement : Parser Live) : Nat → Parser (List Live)
  | 0, s => .ok ([], s)
  | n + 1, s => do
    let (v, s) ← parseElement s
    let (elements, s) ← parseElements parseElement n s.skip
    .ok (v :: elements, s)

/-- Read a number of members into an object, each with its colon and the token that ends it. The
text of a key is taken before its value is read. -/
def parseMembers (r : Request) (parseMember : Parser Live) :
    Nat → Object Slice Live → Parser (Object Slice Live)
  | 0, o, s => .ok (o, s)
  | n + 1, o, s => do
    let s := s.skip
    let key ← parseString r s.cursor
    let (v, s) ← parseMember s.skip
    parseMembers r parseMember n (o.append key v) s.skip

/-- Read a value. The number bounds the tokens ahead; behind the last one there is no value. -/
def parseValue (r : Request) : Nat → Bool → Parser Live
  | 0, _, s => .error (s.skip.cursor.fault .unexpectedCharacter)
  | ahead + 1, root, s =>
    let (b, s) := s.next
    if b == Byte.openArray then do
      let s ← s.pushDepth r.limit
      if s.cursor.count = 0 then .ok (.array [], s.skip.popDepth)
      else
        let (elements, s) ← parseElements (parseValue r ahead false) s.cursor.count s
        .ok (.array elements, s.popDepth)
    else if b == Byte.openObject then do
      let s ← s.pushDepth r.limit
      if s.cursor.count = 0 then .ok (.ofObject .empty, s.skip.popDepth)
      else
        let room := Object.empty.reserve s.cursor.count
        let (o, s) ← parseMembers r (parseValue r ahead false) s.cursor.count room s
        .ok (.ofObject o.finalize, s.popDepth)
    else do
      let v ← parseAtom r root b s.cursor
      .ok (v, s)

/-- The live value of a text, or the first fault in it. -/
def parse (r : Request) (input : Bytes) : Except Fault Live := do
  let c ← Cursor.ofInput input
  let (v, _) ← parseValue r c.rest.length true ⟨c, 0⟩
  .ok v

end Decode

/-- The live value of a text that is in a buffer, or the error that its first fault is reported
as. -/
def Live.decode (form : Representation) (buffer requested : Nat) (input : Bytes) :
    Except ParseError Live :=
  (Decode.parse ⟨form, buffer, effectiveDepth requested⟩ input).mapError (·.locate input)

/-- The contents of a text, or the error that its first fault is reported as. -/
def decode (form : Representation) (requested : Nat) (input : Bytes) : Except ParseError Value :=
  Live.contents <$> Live.decode form 0 requested input

end JsonTree
