import JsonTree.Bytes

/-!
# UTF-8

A code point is written with one to four bytes: a lead byte that tells the length, and continuation
bytes that carry six bits each, most significant first. `decode` is the strict reader: it refuses
overlong forms, surrogates and everything above the last code point.

## Main definitions

- `Utf8.encode`: the bytes of one code point.
- `Utf8.decode`: the scalar values that a byte string spells, if it is well formed.
- `Utf8.WellFormed`: byte strings that spell some list of scalar values.
-/

namespace JsonTree.Utf8

/-- The last code point. -/
abbrev lastCodePoint : Nat := 0x10FFFF

/-- The code point that stands for what has no encoding. -/
abbrev replacement : Nat := 0xFFFD

/-- A code point that well-formed text may spell: in range and no surrogate. -/
def isScalarValue (cp : Nat) : Bool :=
  cp ≤ lastCodePoint && (cp < 0xD800 || 0xDFFF < cp)

/-! ## §1 Writing -/

/-- The continuation byte that carries bits `6 * i` to `6 * i + 5` of a code point. -/
def continuation (cp i : Nat) : UInt8 := UInt8.ofNat (0x80 + cp >>> (6 * i) % 64)

/-- The UTF-8 form of a code point. A surrogate takes three bytes like its neighbours; above the
last code point there is no form. -/
def encode (cp : Nat) : Bytes :=
  if cp < 0x80 then [UInt8.ofNat cp]
  else if cp < 0x800 then [UInt8.ofNat (0xC0 + cp / 64), continuation cp 0]
  else if cp < 0x10000 then
    [UInt8.ofNat (0xE0 + cp >>> 12), continuation cp 1, continuation cp 0]
  else if cp ≤ lastCodePoint then
    [UInt8.ofNat (0xF0 + cp >>> 18), continuation cp 2, continuation cp 1, continuation cp 0]
  else []

/-- The UTF-8 form of a code point, or of the replacement character where it is no scalar value. -/
def encodeScalar (cp : Nat) : Bytes :=
  encode (if isScalarValue cp then cp else replacement)

/-! ## §2 Reading -/

/-- The six bits of a continuation byte. -/
def continued? (b : UInt8) : Option Nat :=
  if 0x80 ≤ b && b ≤ 0xBF then some (b.toNat - 0x80) else none

/-- The scalar values that a byte string spells; none unless it is well formed. -/
def decode : Bytes → Option (List Nat)
  | [] => some []
  | a :: rest =>
    if a < 0x80 then (a.toNat :: ·) <$> decode rest
    else if a < 0xC0 then none
    else match rest with
      | [] => none
      | b :: rest => do
        let b ← continued? b
        if a < 0xE0 then
          let cp := (a.toNat - 0xC0) * 64 + b
          if 0x80 ≤ cp then (cp :: ·) <$> decode rest else none
        else match rest with
          | [] => none
          | c :: rest => do
            let c ← continued? c
            if a < 0xF0 then
              let cp := ((a.toNat - 0xE0) * 64 + b) * 64 + c
              if 0x800 ≤ cp && isScalarValue cp then (cp :: ·) <$> decode rest else none
            else match rest with
              | [] => none
              | d :: rest => do
                let d ← continued? d
                let cp := (((a.toNat - 0xF0) * 64 + b) * 64 + c) * 64 + d
                if 0x10000 ≤ cp && isScalarValue cp then (cp :: ·) <$> decode rest else none

/-- Byte strings that spell a list of scalar values. -/
def WellFormed (bs : Bytes) : Prop := (decode bs).isSome = true

instance (bs : Bytes) : Decidable (WellFormed bs) := inferInstanceAs (Decidable (_ = true))

end JsonTree.Utf8
