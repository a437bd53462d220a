import JsonTree.Token

/-!
# Splitting input into tokens

One pass over the bytes. Each byte makes one of three moves: it lies in a gap between tokens, it
starts a token, or it extends the token that is being read; so no byte is lost and none belongs to
two tokens. In a string a backslash protects the byte after it, and an unprotected quote is the
last byte of the token. Input that ends inside a string is at fault where the string was opened.

## Main definitions

- `Token.Mode`, `Token.Mode.move`: what the pass remembers, and the move of a byte.
- `Token.scan`: the tokens of a text.
-/

namespace JsonTree.Token

/-! ## §1 The moves -/

/-- What the pass is in the middle of. -/
inductive Mode where
  /-- Between tokens. -/
  | between
  /-- In a scalar. -/
  | scalar
  /-- In a string that was opened at an offset. -/
  | string (opened : Nat)
  /-- In a string that was opened at an offset, after a backslash. -/
  | escaped (opened : Nat)
deriving DecidableEq

/-- What a byte does, and the mode after it. -/
inductive Move where
  /-- It lies between tokens. -/
  | gap
  /-- It is the first byte of a token. -/
  | start (next : Mode)
  /-- It belongs to the token that is being read. -/
  | extend (next : Mode)
deriving DecidableEq

namespace Mode

/-- The move of a byte at an offset that no token has claimed yet. -/
def fresh (offset : Nat) (b : UInt8) : Move :=
  if Byte.isWhitespace b then .gap
  else if Byte.isStructural b then .start .between
  else if b == Byte.quote then .start (.string offset)
  else .start .scalar

/-- The move of a byte at an offset. -/
def move (offset : Nat) (b : UInt8) : Mode → Move
  | .between => fresh offset b
  | .scalar => if Byte.isDelimiter b then fresh offset b else .extend .scalar
  | .string opened =>
    if b == Byte.quote then .extend .between
    else if b == Byte.backslash then .extend (.escaped opened)
    else .extend (.string opened)
  | .escaped opened => .extend (.string opened)

end Mode

/-! ## §2 The pass -/

/-- What the pass finds in a suffix of the input. -/
structure Run where
  /-- The bytes that complete the token being read. -/
  text : Bytes
  /-- The input after that token. -/
  rest : Bytes
  /-- The tokens that start in the suffix. -/
  tokens : List Token

/-- Read a suffix of the input that begins at an offset. -/
def runFrom (mode : Mode) (offset : Nat) : Bytes → Except Fault Run
  | [] =>
    match mode with
    | .between | .scalar => .ok ⟨[], [], []⟩
    | .string opened | .escaped opened => .error ⟨.unterminatedString, opened⟩
  | b :: bs =>
    match mode.move offset b with
    | .gap => do
      let run ← runFrom .between (offset + 1) bs
      .ok ⟨[], b :: bs, run.tokens⟩
    | .start next => do
      let run ← runFrom next (offset + 1) bs
      .ok ⟨[], b :: bs, ⟨offset, b :: run.text, run.rest⟩ :: run.tokens⟩
    | .extend next => do
      let run ← runFrom next (offset + 1) bs
      .ok ⟨b :: run.text, run.rest, run.tokens⟩

/-- The tokens of a text. There must be one. -/
def scan (input : Bytes) : Except Fault (List Token) := do
  let run ← runFrom .between 0 input
  if run.tokens.isEmpty then .error ⟨.unexpectedEnd, input.length⟩ else .ok run.tokens

end JsonTree.Token
