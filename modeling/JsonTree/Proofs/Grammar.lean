import JsonTree.Proofs.Number.Nearest
import JsonTree.Proofs.Object.Rows
import JsonTree.Number.Literal
import JsonTree.Utf8
import JsonTree.Value
import Mathlib.Data.Bool.AllAny

/-!
# The grammar of texts

A text and the value that it spells, as relations between bytes and trees. Nothing here looks at
tokens, counts or cursors: a production says which bytes stand side by side, and what they denote.
String contents and numbers are more liberal and less liberal than RFC 8259 in one point each: raw
control bytes and raw bytes that are no UTF-8 stand for themselves, and numbers from the limit of
the finite doubles on are not spelled at all.

## Main definitions

- `Grammar.Contents`: what stands between the quotes of a string.
- `Grammar.Numeral`, `Grammar.Denotes`: number literals, and the numbers that they denote.
- `Grammar.Spells`: values, with a bound on the nesting of their containers.
- `Grammar.Document`: a value with whitespace around it.
-/

namespace JsonTree

/-- The number that a literal without fraction and exponent stands for. -/
def Literal.integer (l : Literal) : Int := signed l.negative (natOfDigits l.whole)

/-- The size of the number that a literal stands for. -/
def Literal.size (l : Literal) : ℚ := l.significand * 10 ^ l.scale

namespace Grammar

/-- Any run of whitespace. -/
def Blank (bs : Bytes) : Prop := ∀ b ∈ bs, Byte.isWhitespace b = true

/-! ## §1 Strings -/

/-- The one-letter escapes: the letter, and the byte that it stands for. -/
def shortEscapes : List (UInt8 × UInt8) :=
  [(0x22, 0x22), (0x5C, 0x5C), (0x2F, 0x2F), (0x62, 0x08), (0x66, 0x0C), (0x6E, 0x0A),
    (0x72, 0x0D), (0x74, 0x09)]

/-- The hexadecimal digits of either case, and their values. -/
def HexDigit (b : UInt8) (n : Nat) : Prop :=
  (Bytes.ofAscii "0123456789abcdef")[n]? = some b ∨ (Bytes.ofAscii "0123456789ABCDEF")[n]? = some b

/-- Four hexadecimal digits, and the unit that they spell. -/
inductive Quad : Bytes → Nat → Prop where
  | mk {b₁ b₂ b₃ b₄ : UInt8} {n₁ n₂ n₃ n₄ : Nat} :
      HexDigit b₁ n₁ → HexDigit b₂ n₂ → HexDigit b₃ n₃ → HexDigit b₄ n₄ →
      Quad [b₁, b₂, b₃, b₄] (((n₁ * 16 + n₂) * 16 + n₃) * 16 + n₄)

/-- What stands between the quotes of a string, and the text that it denotes. -/
inductive Contents : Bytes → Bytes → Prop where
  | empty : Contents [] []
  | raw {b : UInt8} {bs text : Bytes} :
      b ≠ Byte.quote → b ≠ Byte.backslash → Contents bs text → Contents (b :: bs) (b :: text)
  | short {letter b : UInt8} {bs text : Bytes} :
      (letter, b) ∈ shortEscapes → Contents bs text →
      Contents (Byte.backslash :: letter :: bs) (b :: text)
  | unit {quad bs text : Bytes} {u : Nat} :
      Quad quad u → ¬ (0xD800 ≤ u ∧ u ≤ 0xDFFF) → Contents bs text →
      Contents (Byte.backslash :: 0x75 :: quad ++ bs) (Utf8.encode u ++ text)
  | pair {quad quad' bs text : Bytes} {high low : Nat} :
      Quad quad high → 0xD800 ≤ high ∧ high ≤ 0xDBFF →
      Quad quad' low → 0xDC00 ≤ low ∧ low ≤ 0xDFFF → Contents bs text →
      Contents (Byte.backslash :: 0x75 :: quad ++ (Byte.backslash :: 0x75 :: quad' ++ bs))
        (Utf8.encode (0x10000 + (high - 0xD800) * 0x400 + (low - 0xDC00)) ++ text)

/-- Contents between quotes. -/
def quoted (contents : Bytes) : Bytes := Byte.quote :: contents ++ [Byte.quote]

/-! ## §2 Numbers -/

/-- A run of digits, at least one. -/
structure Digits (ds : Bytes) : Prop where
  nonempty : ds ≠ []
  digit : ∀ d ∈ ds, Byte.isDigit d = true

/-- An integer part: a single zero, or a run of digits that begins with another one. -/
inductive Whole : Bytes → Prop where
  | zero : Whole [0x30]
  | run {ds : Bytes} : Digits ds → ds.head? ≠ some 0x30 → Whole ds

/-- A fraction, which may be absent. -/
inductive Fraction : Bytes → Option Bytes → Prop where
  | absent : Fraction [] none
  | present {ds : Bytes} : Digits ds → Fraction (0x2E :: ds) (some ds)

/-- The sign of an exponent, which may be absent, and whether it is a minus. -/
inductive ExponentSign : Bytes → Bool → Prop where
  | absent : ExponentSign [] false
  | plus : ExponentSign [0x2B] false
  | minus : ExponentSign [0x2D] true

/-- An exponent, which may be absent. -/
inductive Exponent : Bytes → Option (Bool × Bytes) → Prop where
  | absent : Exponent [] none
  | present {letter : UInt8} {sign ds : Bytes} {minus : Bool} :
      letter = 0x65 ∨ letter = 0x45 → ExponentSign sign minus → Digits ds →
      Exponent (letter :: sign ++ ds) (some (minus, ds))

/-- The minus of a number, if it is negative. -/
def minusSign (negative : Bool) : Bytes := if negative then [Byte.minus] else []

/-- A number literal of RFC 8259, and its parts. -/
inductive Numeral : Bytes → Literal → Prop where
  | mk {negative : Bool} {whole point power : Bytes} {fraction : Option Bytes}
      {exponent : Option (Bool × Bytes)} :
      Whole whole → Fraction point fraction → Exponent power exponent →
      Numeral (minusSign negative ++ (whole ++ (point ++ power)))
        ⟨negative, whole, fraction, exponent⟩

/-- A literal without fraction and exponent whose number fits 64 bits. -/
def IsInteger (l : Literal) : Prop :=
  l.fraction = none ∧ l.exponent = none ∧ -2 ^ 63 ≤ l.integer ∧ l.integer < 2 ^ 63

/-- The number that a literal denotes: that very integer, or else the nearest double where there is
a finite one. -/
inductive Denotes (l : Literal) : Number → Prop where
  | integer {n : Int64} : IsInteger l → n.toInt = l.integer → Denotes l (.i64 n)
  | double {x : Binary64} : ¬ IsInteger l → l.size < 2 ^ 1024 - 2 ^ 970 →
      x.IsNearest l.negative l.size → Denotes l (.f64 x)

/-! ## §3 Values -/

/-- A key with whitespace around it, and the text that it denotes. -/
inductive Key : Bytes → Bytes → Prop where
  | mk {before contents after text : Bytes} :
      Blank before → Contents contents text → Blank after →
      Key (before ++ (quoted contents ++ after)) text

mutual

/-- A value whose containers are nested at most `depth` deep, and the tree that it denotes. -/
inductive Spells : (depth : Nat) → Bytes → Value → Prop where
  | null {depth : Nat} : Spells depth (Bytes.ofAscii "null") .null
  | true {depth : Nat} : Spells depth (Bytes.ofAscii "true") (.bool true)
  | false {depth : Nat} : Spells depth (Bytes.ofAscii "false") (.bool false)
  | number {depth : Nat} {bs : Bytes} {l : Literal} {n : Number} :
      Numeral bs l → Denotes l n → Spells depth bs (.ofNumber n)
  | string {depth : Nat} {bs text : Bytes} :
      Contents bs text → Spells depth (quoted bs) (.string (.owned text))
  | emptyArray {depth : Nat} {blank : Bytes} :
      Blank blank → Spells (depth + 1) (Byte.openArray :: blank ++ [Byte.closeArray]) (.array [])
  | array {depth : Nat} {bs : Bytes} {elements : List Value} :
      Elements depth bs elements →
      Spells (depth + 1) (Byte.openArray :: bs ++ [Byte.closeArray]) (.array elements)
  | emptyObject {depth : Nat} {blank : Bytes} :
      Blank blank → Spells (depth + 1) (Byte.openObject :: blank ++ [Byte.closeObject]) (.object [])
  /-- Of the members with one key the last one counts. -/
  | object {depth : Nat} {bs : Bytes} {rows : List (Text × Value)} :
      Members depth bs rows →
      Spells (depth + 1) (Byte.openObject :: bs ++ [Byte.closeObject])
        (.object (Rows.lastOfEach rows))

/-- A value with whitespace around it. -/
inductive Padded : (depth : Nat) → Bytes → Value → Prop where
  | mk {depth : Nat} {before bs after : Bytes} {v : Value} :
      Blank before → Spells depth bs v → Blank after → Padded depth (before ++ (bs ++ after)) v

/-- The elements of an array with commas between them, at least one. -/
inductive Elements : (depth : Nat) → Bytes → List Value → Prop where
  | last {depth : Nat} {bs : Bytes} {v : Value} : Padded depth bs v → Elements depth bs [v]
  | more {depth : Nat} {bs rest : Bytes} {v : Value} {elements : List Value} :
      Padded depth bs v → Elements depth rest elements →
      Elements depth (bs ++ Byte.comma :: rest) (v :: elements)

/-- The members of an object with commas between them, at least one, as they are written. -/
inductive Members : (depth : Nat) → Bytes → List (Text × Value) → Prop where
  | last {depth : Nat} {key bs text : Bytes} {v : Value} :
      Key key text → Padded depth bs v →
      Members depth (key ++ Byte.colon :: bs) [(.owned text, v)]
  | more {depth : Nat} {key bs rest text : Bytes} {v : Value} {rows : List (Text × Value)} :
      Key key text → Padded depth bs v → Members depth rest rows →
      Members depth (key ++ Byte.colon :: (bs ++ Byte.comma :: rest)) ((.owned text, v) :: rows)

end

/-- A text that consists of one value and whitespace, and the tree that it denotes. -/
def Document (depth : Nat) (text : Bytes) (v : Value) : Prop := Padded depth text v

end Grammar

end JsonTree
