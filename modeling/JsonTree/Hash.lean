import JsonTree.Bytes

/-!
# Key hash

A 64-bit hash of a byte string: its bytes are packed into pairs of words, each pair is mixed in
turn into a state seeded with the length, and the state is scrambled once more at the end.

Which bytes go into which word depends on the length alone. That plan, `Hash.loads`, is a list of
positions, so what the hash reads can be stated without the bytes themselves. Words overlap
rather than leave the last block short.

## Main definitions

- `Hash.loads`: the positions that each pair of words is packed from.
- `Hash.words`: the pairs of words that a byte string gives.
- `Hash.hash`: the hash.
-/

namespace JsonTree.Hash

/-- The seed, and the multiplier that ends a mixing step. -/
abbrev seed : UInt64 := 0xa0761d6478bd642f

/-- The multiplier in the middle of a mixing step. -/
abbrev factor : UInt64 := 0xe7037ed1a0b428db

/-! ## §1 Which bytes are read -/

/-- The positions of a little-endian word of `width` bytes that begins at `start`, the most
significant byte first. -/
def span (start width : Nat) : List Nat := (List.range width).reverse.map (start + ·)

/-- The positions that each pair of words is packed from, for a text of `n` bytes: its ends where
it has up to eight bytes, else blocks of sixteen and then the last sixteen again. -/
def loads (n : Nat) : List (List Nat × List Nat) :=
  if n = 0 then [([], [])]
  else if n < 4 then [([0, n / 2, n - 1], [])]
  else if n ≤ 8 then [(span 0 4, span (n - 4) 4)]
  else
    (List.range ((n - 1) / 16)).map (fun i => (span (16 * i) 8, span (16 * i + 8) 8)) ++
      [(span (n - min n 16) 8, span (n - 8) 8)]

/-- The word whose bytes stand at the given positions, the most significant first. -/
def pack (bs : Bytes) (positions : List Nat) : UInt64 :=
  positions.foldl (fun word i => word <<< 8 ||| (bs.getD i 0).toUInt64) 0

/-- The pairs of words that a byte string gives. -/
def words (bs : Bytes) : List (UInt64 × UInt64) :=
  (loads bs.length).map fun (a, b) => (pack bs a, pack bs b)

/-! ## §2 Mixing -/

/-- Mix a pair of words into the state. -/
def mix (state : UInt64) (ab : UInt64 × UInt64) : UInt64 :=
  (((state ^^^ ab.1) * factor) ^^^ ab.2) * seed

/-- The last scrambling of the state. -/
def scramble (state : UInt64) : UInt64 :=
  let state := (state ^^^ (state >>> 32)) * seed
  state ^^^ (state >>> 29)

/-- The hash of a byte string. -/
def hash (bs : Bytes) : UInt64 :=
  scramble ((words bs).foldl mix (seed ^^^ (UInt64.ofNat bs.length * factor)))

end JsonTree.Hash
