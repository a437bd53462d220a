import JsonTree.Error.Fault
import JsonTree.Text
import JsonTree.Utf8

/-!
# String contents

The bytes between two quotes are raw runs and escapes. An escape is a backslash with one of eight
letters, or with `u` and four hexadecimal digits for a unit of UTF-16. A unit that is no surrogate
stands for itself; a high surrogate must be followed at once by the escape of a low one, and the
pair stands for one code point. Raw bytes, control bytes included, stand for themselves. The reader
is given all input after the opening quote, and finds the closing one itself.

## Main definitions

- `Escape.hex4?`: the unit that four hexadecimal digits spell.
- `Escape.letter?`: the byte that a one-letter escape stands for.
- `Escape.unescape`: the text that string contents stand for, up to the closing quote.
- `Text.read`: borrowed as it stands where it has no escape, else owned.
-/

namespace JsonTree

namespace Escape

/-! ## §1 Escapes -/

/-- The value of a hexadecimal digit of either case. -/
def hexDigit? (b : UInt8) : Option Nat :=
  if 0x30 ≤ b && b ≤ 0x39 then some (b.toNat - 0x30)
  else if 0x41 ≤ b && b ≤ 0x46 then some (b.toNat - 0x41 + 10)
  else if 0x61 ≤ b && b ≤ 0x66 then some (b.toNat - 0x61 + 10)
  else none

/-- The unit that four hexadecimal digits spell. -/
def hex4? (a b c d : UInt8) : Option Nat := do
  let a ← hexDigit? a
  let b ← hexDigit? b
  let c ← hexDigit? c
  let d ← hexDigit? d
  some (((a * 16 + b) * 16 + c) * 16 + d)

/-- The byte that a one-letter escape stands for. -/
def letter? (b : UInt8) : Option UInt8 :=
  if b == Byte.quote || b == Byte.backslash || b == 0x2F then some b
  else if b == 0x62 then some 0x08
  else if b == 0x66 then some 0x0C
  else if b == 0x6E then some 0x0A
  else if b == 0x72 then some 0x0D
  else if b == 0x74 then some 0x09
  else none

/-- The letter that a hexadecimal escape begins with. -/
abbrev unitLetter : UInt8 := 0x75

/-- The first unit of a pair. -/
def isHigh (unit : Nat) : Bool := 0xD800 ≤ unit && unit ≤ 0xDBFF

/-- The second unit of a pair. -/
def isLow (unit : Nat) : Bool := 0xDC00 ≤ unit && unit ≤ 0xDFFF

/-- The code point of a pair. -/
def ofPair (high low : Nat) : Nat := 0x10000 + (high - 0xD800) * 0x400 + (low - 0xDC00)

/-! ## §2 Contents -/

/-- The text of string contents and the input from the closing quote on, where the given input
begins with the contents at an offset. An unknown letter is a fault at its backslash, a missing or
wrong digit one at the first place for a digit, and an unpaired surrogate one at the backslash of
its escape. -/
def unescape (offset : Nat) : Bytes → Except Fault (Bytes × Bytes)
  | [] => .error ⟨.unterminatedString, offset⟩
  | b :: rest =>
    if b == Byte.quote then .ok ([], b :: rest)
    else if b != Byte.backslash then do
      let (text, rest) ← unescape (offset + 1) rest
      .ok (b :: text, rest)
    else match rest with
      | [] => .error ⟨.unterminatedString, offset⟩
      | c :: rest =>
        if c != unitLetter then
          match letter? c with
          | none => .error ⟨.invalidEscape, offset⟩
          | some x => do
            let (text, rest) ← unescape (offset + 2) rest
            .ok (x :: text, rest)
        else match rest with
          | a₁ :: a₂ :: a₃ :: a₄ :: rest =>
            match hex4? a₁ a₂ a₃ a₄ with
            | none => .error ⟨.invalidUnicodeEscape, offset + 2⟩
            | some unit =>
              if isLow unit then .error ⟨.invalidUnicodeEscape, offset⟩
              else if !isHigh unit then do
                let (text, rest) ← unescape (offset + 6) rest
                .ok (Utf8.encode unit ++ text, rest)
              else match rest with
                | s :: u :: rest =>
                  if s != Byte.backslash || u != unitLetter then
                    .error ⟨.invalidUnicodeEscape, offset⟩
                  else match rest with
                    | b₁ :: b₂ :: b₃ :: b₄ :: rest =>
                      match hex4? b₁ b₂ b₃ b₄ with
                      | none => .error ⟨.invalidUnicodeEscape, offset + 8⟩
                      | some low =>
                        if !isLow low then .error ⟨.invalidUnicodeEscape, offset⟩
                        else do
                          let (text, rest) ← unescape (offset + 12) rest
                          .ok (Utf8.encode (ofPair unit low) ++ text, rest)
                    | _ => .error ⟨.invalidUnicodeEscape, offset + 8⟩
                | _ => .error ⟨.invalidUnicodeEscape, offset⟩
          | _ => .error ⟨.invalidUnicodeEscape, offset + 2⟩

end Escape

/-- The text of the string whose contents begin the given input at an offset. If the first quote or
backslash is a quote, the contents have no escape and are borrowed as they stand. -/
def Text.read (offset : Nat) (input : Bytes) : Except Fault Text :=
  match Bytes.skipRun input with
  | [] => .error ⟨.unterminatedString, offset⟩
  | b :: _ =>
    if b == Byte.quote then .ok (.borrowed (Bytes.takeRun input))
    else do
      let (text, _) ← Escape.unescape offset input
      .ok (.owned text)

end JsonTree
