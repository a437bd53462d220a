import JsonTree.Bytes

/-!
# Errors

What went wrong is a `Cause`. Each cause has a number and a message; the numbers of decoding,
access and encoding causes lie in ranges of their own, and a number outside the list has one
common message. The three kinds of error add what they know: a place in the input, nothing, or a
text of their own.

## Main definitions

- `Cause`, with `Cause.code`, `Cause.ofCode` and `Cause.message`.
- `ParseError`, `AccessError`, `EncodeError`, each with its `message`.
-/

namespace JsonTree

/-! ## §1 Causes -/

/-- What went wrong. -/
inductive Cause where
  | success
  | unexpectedEnd
  | unexpectedCharacter
  | invalidEscape
  | invalidUnicodeEscape
  | invalidNumber
  | unterminatedString
  | unterminatedArray
  | unterminatedObject
  | trailingContent
  | depthExceeded
  | invalidLiteral
  | notAnObject
  | notAnArray
  | keyNotString
  /-- A number that stands for no listed cause. -/
  | unlisted (code : Int)
deriving DecidableEq

namespace Cause

/-- The number of a cause: decoding from 1, access from 50, encoding from 80. -/
def code : Cause → Int
  | .success => 0
  | .unexpectedEnd => 1
  | .unexpectedCharacter => 2
  | .invalidEscape => 3
  | .invalidUnicodeEscape => 4
  | .invalidNumber => 5
  | .unterminatedString => 6
  | .unterminatedArray => 7
  | .unterminatedObject => 8
  | .trailingContent => 9
  | .depthExceeded => 10
  | .invalidLiteral => 11
  | .notAnObject => 50
  | .notAnArray => 51
  | .keyNotString => 80
  | .unlisted code => code

/-- The cause with a given number. -/
def ofCode : Int → Cause
  | 0 => .success
  | 1 => .unexpectedEnd
  | 2 => .unexpectedCharacter
  | 3 => .invalidEscape
  | 4 => .invalidUnicodeEscape
  | 5 => .invalidNumber
  | 6 => .unterminatedString
  | 7 => .unterminatedArray
  | 8 => .unterminatedObject
  | 9 => .trailingContent
  | 10 => .depthExceeded
  | 11 => .invalidLiteral
  | 50 => .notAnObject
  | 51 => .notAnArray
  | 80 => .keyNotString
  | code => .unlisted code

/-- The wording of a cause. -/
def message : Cause → String
  | .success => "success"
  | .unexpectedEnd => "unexpected end of input"
  | .unexpectedCharacter => "unexpected character"
  | .invalidEscape => "invalid escape sequence"
  | .invalidUnicodeEscape => "invalid unicode escape"
  | .invalidNumber => "invalid number"
  | .unterminatedString => "unterminated string"
  | .unterminatedArray => "unterminated array"
  | .unterminatedObject => "unterminated object"
  | .trailingContent => "trailing content after JSON"
  | .depthExceeded => "maximum nesting depth exceeded"
  | .invalidLiteral => "invalid literal"
  | .notAnObject => "value is not an object"
  | .notAnArray => "value is not an array"
  | .keyNotString => "map key must be a string"
  | .unlisted _ => "unknown domjson error"

/-- The name under which all causes are numbered. -/
abbrev category : String := "domjson"

/-- The report of a cause, after a text where there is one. A report is terminated text: it ends at
the first zero byte. -/
def report (cause : Cause) : Option Bytes → Bytes
  | none => Bytes.ofAscii cause.message
  | some text => Bytes.untilZero (text ++ Bytes.ofAscii (": " ++ cause.message))

end Cause

/-! ## §2 The three kinds of error -/

/-- A place in the input: a line and a column counted from one, and a byte offset from zero. -/
structure Position where
  line : Nat
  column : Nat
  offset : Nat
deriving DecidableEq

/-- A text that could not be decoded. -/
structure ParseError where
  cause : Cause
  position : Position
  /-- What the report says after the position. -/
  detail : Bytes
deriving DecidableEq

/-- The report of a decoding error: its position, its detail and its cause. -/
def ParseError.message (e : ParseError) : Bytes :=
  e.cause.report <| some <|
    Bytes.ofAscii "JSON decode error at line " ++ Bytes.ofNat e.position.line ++
    Bytes.ofAscii ", column " ++ Bytes.ofNat e.position.column ++
    Bytes.ofAscii " (offset " ++ Bytes.ofNat e.position.offset ++
    Bytes.ofAscii "): " ++ e.detail

/-- A value of the wrong kind was asked to change. -/
structure AccessError where
  cause : Cause
deriving DecidableEq

/-- The report of an access error is that of its cause. -/
def AccessError.message (e : AccessError) : Bytes := e.cause.report none

/-- A shape that could not be encoded. -/
structure EncodeError where
  cause : Cause
  /-- What the report says before the cause. -/
  detail : Option Bytes
deriving DecidableEq

/-- The report of an encoding error. -/
def EncodeError.message (e : EncodeError) : Bytes := e.cause.report e.detail

end JsonTree
