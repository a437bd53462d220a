import JsonTree.Token.Scan

/-!
# The outline of a token sequence

One pass over the tokens checks that they form a single value, and counts the elements of each
array and the members of each object. The pass is a pushdown machine: what may come next, and a
stack of the brackets that are still open, innermost first. The first token that cannot be there
is at fault; where the tokens run out inside a container, the fault is at the end of the input.

The check knows tokens by their first byte only. Strings, numbers and unknown scalars pass as
scalars, except that a scalar which begins like a word must be that word.

## Main definitions

- `Outline.State.advance`: the machine's step, with the part that the token plays.
- `Token.outline`: the tokens of a well-formed sequence, each with its element count.
-/

namespace JsonTree

namespace Outline

/-! ## §1 The machine -/

/-- The two kinds of container. -/
inductive Bracket where
  | array
  | object
deriving DecidableEq

/-- What may come next. -/
inductive Expect where
  /-- A value. -/
  | value
  /-- A value, or the end of an array that is still empty. -/
  | element
  /-- A key. -/
  | key
  /-- A key, or the end of an object that is still empty. -/
  | member
  /-- The colon after a key. -/
  | colon
  /-- A comma, or the end of the innermost container. -/
  | separator
  /-- Nothing: the value is complete. -/
  | nothing
deriving DecidableEq

/-- A state of the machine. -/
structure State where
  expect : Expect
  /-- The open brackets, innermost first. -/
  stack : List Bracket
deriving DecidableEq

/-- The part that a token plays. -/
inductive Role where
  /-- It opens a container, which is a value. -/
  | opening
  /-- It closes the innermost container. -/
  | closing
  /-- It is a value by itself. -/
  | scalar
  /-- It is a key. -/
  | key
  /-- It is a comma or a colon. -/
  | mark
deriving DecidableEq

namespace State

/-- The machine at the start. -/
def start : State := ⟨.value, []⟩

/-- The machine after a value, given the brackets around it. -/
def afterValue (stack : List Bracket) : State :=
  ⟨if stack.isEmpty then .nothing else .separator, stack⟩

/-- The step at a token where a value must begin. -/
def beginValue (stack : List Bracket) (t : Token) : Except Cause (Role × State) :=
  if t.head == Byte.openArray then .ok (.opening, ⟨.element, .array :: stack⟩)
  else if t.head == Byte.openObject then .ok (.opening, ⟨.member, .object :: stack⟩)
  else if Byte.isStructural t.head then .error .unexpectedCharacter
  else if t.beginsWord && !t.isWord then .error .invalidLiteral
  else .ok (.scalar, afterValue stack)

/-- The step at a token where a key must stand. -/
def beginMember (stack : List Bracket) (t : Token) : Except Cause (Role × State) :=
  if t.head == Byte.quote then .ok (.key, ⟨.colon, stack⟩) else .error .unexpectedCharacter

/-- The step at a token that closes the innermost container. -/
def close (stack : List Bracket) : Role × State := (.closing, afterValue stack.tail)

/-- The step at a token between the elements or members of a container. -/
def continueIn (stack : List Bracket) (t : Token) : Except Cause (Role × State) :=
  match stack.head? with
  | some .object =>
    if t.head == Byte.comma then .ok (.mark, ⟨.key, stack⟩)
    else if t.head == Byte.closeObject then .ok (close stack)
    else .error .unexpectedCharacter
  | _ =>
    if t.head == Byte.comma then .ok (.mark, ⟨.value, stack⟩)
    else if t.head == Byte.closeArray then .ok (close stack)
    else .error .unexpectedCharacter

/-- The step of the machine at a token. -/
def advance (s : State) (t : Token) : Except Cause (Role × State) :=
  match s.expect with
  | .value => beginValue s.stack t
  | .element => if t.head == Byte.closeArray then .ok (close s.stack) else beginValue s.stack t
  | .key => beginMember s.stack t
  | .member => if t.head == Byte.closeObject then .ok (close s.stack) else beginMember s.stack t
  | .colon =>
    if t.head == Byte.colon then .ok (.mark, ⟨.value, s.stack⟩) else .error .unexpectedCharacter
  | .separator => continueIn s.stack t
  | .nothing => .error .trailingContent

/-- The cause of a fault where the tokens run out, if they may not end here. -/
def endFault? (s : State) : Option Cause :=
  match s.expect, s.stack with
  | .nothing, _ => none
  | _, .object :: _ => some .unterminatedObject
  | _, .array :: _ => some .unterminatedArray
  | _, [] => some .unexpectedEnd

end State

/-! ## §2 Counting -/

/-- One more in the innermost open container. -/
def bump : List Nat → List Nat
  | [] => []
  | n :: outer => (n + 1) :: outer

/-- One more, if the innermost open container is an array. Members are counted at their keys. -/
def countElement (stack : List Bracket) (ahead : List Nat) : List Nat :=
  if stack.head? = some .array then bump ahead else ahead

/-- The count of a token, and how many elements lie ahead of it in each container that is open
there, given how many lie ahead of the token that follows. -/
def Role.tally (stack : List Bracket) (ahead : List Nat) : Role → Nat × List Nat
  | .opening => (ahead.headD 0, countElement stack ahead.tail)
  | .closing => (0, 0 :: ahead)
  | .scalar => (0, countElement stack ahead)
  | .key => (0, bump ahead)
  | .mark => (0, ahead)

/-- A token with its count: of elements for an opening bracket, of members for an opening brace. -/
structure Item where
  token : Token
  count : Nat

/-- Run the machine over the rest of the tokens. For each container that is open at the start, the
innermost first, the answer has the number of elements that lie ahead. -/
def itemsFrom (size : Nat) (s : State) : List Token → Except Fault (List Item × List Nat)
  | [] =>
    match s.endFault? with
    | none => .ok ([], [])
    | some cause => .error ⟨cause, size⟩
  | t :: ts =>
    match s.advance t with
    | .error cause => .error ⟨cause, t.offset⟩
    | .ok (role, next) => do
      let (items, ahead) ← itemsFrom size next ts
      let (count, ahead) := role.tally s.stack ahead
      .ok (⟨t, count⟩ :: items, ahead)

end Outline

/-- The tokens of a text of `size` bytes with their counts, if they form a single value. -/
def Token.outline (size : Nat) (ts : List Token) : Except Fault (List Outline.Item) :=
  (·.1) <$> Outline.itemsFrom size .start ts

end JsonTree
