import JsonTree.Hash
import JsonTree.Object.Blocks

/-!
# The table of a key index

A table has a slot for each key that was filed. A slot does not copy its key: it remembers the spot
where the key lies and the position of the row it leads to, and answers for whatever the bytes at
its spot spell now.

The slots form one chain. A bucket's slots stand next to one another in it, and the table knows
where each bucket begins. A new slot comes first in its bucket, and a new bucket first in the chain.
As many slots as there are buckets fill the table; before it takes one more the buckets are at least
doubled, and the slots are put in anew, in chain order.

A slot's bucket is that of its present spelling. While each slot spells the key that it was filed
for, a key is found exactly if it was filed. Once keys have moved beneath the table, slots may stand
in a bucket that is not theirs, or be out of reach.

## Main definitions

- `Slot`, `Table`: one slot, and the table.
- `Table.position?`, `Table.file`: looking a key up and filing one.
- `Table.ofRows`: the table of given rows.
- `Table.after`: the table after changes to what lies where.
- `Table.marks`: the rows that a table leads to.
-/

namespace JsonTree

/-! ## §1 Slots -/

/-- A slot of a table. -/
structure Slot where
  /-- Where the key lies. -/
  spot : Spot
  /-- What the bytes there spell now. -/
  spelled : Bytes
  /-- The position of the row that the slot leads to. -/
  position : Nat
deriving DecidableEq

/-- A slot after a change to what lies where. A block keeps its bytes when it changes hands. -/
def Slot.after (s : Slot) : Change → Slot
  | .write spot bytes =>
    if s.spot = spot then { s with spelled := s.spelled.overwrite bytes } else s
  | .exchange i j =>
    if s.spot = .block i then { s with spot := .block j }
    else if s.spot = .block j then { s with spot := .block i }
    else s
  | .giveUp i =>
    match s.spot with
    | .block k => if i ≤ k then { s with spot := .outside } else s
    | _ => s

/-! ## §2 Numbers of buckets -/

/-- The numbers of buckets to choose from: primes, close to one another at first and later about an
eighth apart. -/
def bucketCounts : List Nat :=
  [2, 3, 5, 7, 11, 13, 17, 19, 23, 29, 31, 37, 41, 43, 47, 53, 59, 61, 67, 71, 73, 79, 83, 89, 97,
    103, 109, 113, 127, 137, 139, 149, 157, 167, 179, 193, 199, 211, 227, 241, 257, 277, 293, 313,
    337, 359, 383, 409, 439, 467, 503, 541, 577, 619, 661, 709, 761, 823, 887, 953, 1031, 1109,
    1193, 1289, 1381, 1493, 1613, 1741, 1879, 2029, 2179, 2357, 2549, 2753, 2971, 3209, 3469, 3739,
    4027, 4349, 4703, 5087, 5503, 5953, 6427, 6949, 7517, 8123, 8783, 9497, 10273, 11113, 12011,
    12983, 14033, 15173, 16411, 17749, 19183, 20753]

/-- The number of buckets to choose where at least so many are wanted. -/
def bucketsFor (wanted : Nat) : Nat := (bucketCounts.find? (wanted ≤ ·)).getD wanted

/-! ## §3 The table -/

/-- A table of slots. -/
structure Table where
  /-- The number of buckets. -/
  buckets : Nat
  /-- All slots. -/
  chain : List Slot
  /-- For each bucket that has begun, how many slots the chain has from its beginning on. -/
  starts : List (Nat × Nat)
deriving DecidableEq

namespace Table

/-- The table without slots. -/
def empty (buckets : Nat) : Table := ⟨buckets, [], []⟩

/-- The bucket of a key. -/
def bucket (t : Table) (key : Bytes) : Nat := (Hash.hash key).toNat % t.buckets

/-- The place in the chain of the first slot that answers for a key, as far as its bucket reaches:
from its beginning up to the first slot that spells a key of another one. -/
def place? (t : Table) (key : Bytes) : Option Nat := do
  let b := t.bucket key
  let length ← t.starts.lookup b
  let before := t.chain.length - length
  match t.chain.drop before with
  | [] => none
  | s :: slots =>
    let run := s :: slots.takeWhile (t.bucket ·.spelled == b)
    (run.findIdx? (·.spelled == key)).map (before + ·)

/-- The position that the table gives for a key. -/
def position? (t : Table) (key : Bytes) : Option Nat := do
  let i ← t.place? key
  let s ← t.chain[i]?
  some s.position

/-- The beginnings of buckets after one more slot has come in where some bucket begins: that bucket
and those that begin before it grow longer. -/
def lengthen (length : Nat) (starts : List (Nat × Nat)) : List (Nat × Nat) :=
  starts.map fun (b, n) => (b, if length ≤ n then n + 1 else n)

/-- Let a bucket begin somewhere. -/
def beginAt (b length : Nat) (starts : List (Nat × Nat)) : List (Nat × Nat) :=
  (b, length) :: starts.filter (·.1 != b)

/-- Put a slot in. Where its bucket has not begun yet, it begins the chain, and the bucket of the
slot that was first so far begins behind it. -/
def insert (t : Table) (s : Slot) : Table :=
  let b := t.bucket s.spelled
  let size := t.chain.length
  match t.starts.lookup b with
  | some length =>
    { t with
      chain := t.chain.insertIdx (size - length) s
      starts := lengthen length t.starts }
  | none =>
    let starts := lengthen size t.starts
    let starts :=
      match t.chain with
      | [] => starts
      | first :: _ => beginAt (t.bucket first.spelled) size starts
    { t with chain := s :: t.chain, starts := beginAt b (size + 1) starts }

/-- The table with space for one more slot. -/
def grown (t : Table) : Table :=
  if t.chain.length < t.buckets then t
  else t.chain.foldl insert (empty (bucketsFor (2 * t.buckets)))

/-- File the key that lies at a spot: in the slot that answers for it, or in a new one. -/
def file (t : Table) (spot : Spot) (key : Bytes) (position : Nat) : Table :=
  match t.place? key with
  | some i => { t with chain := t.chain.modify i fun s => { s with position } }
  | none => t.grown.insert ⟨spot, key, position⟩

/-- The table of given rows, filed in storage order. -/
def ofRows {σ α : Type} [Readable σ] (buckets : Nat) (rows : Rows σ α) (blocks : Blocks) : Table :=
  rows.zipIdx.foldl (fun t (row, i) => t.file (blocks.spot i row.1) row.1.bytes i) (empty buckets)

/-- The table after changes to what lies where. -/
def after (t : Table) (changes : List Change) : Table :=
  { t with chain := t.chain.map (changes.foldl Slot.after ·) }

/-- Mark the rows that slots lead to, among a number of rows. -/
def marks (t : Table) (n : Nat) : List Bool :=
  t.chain.foldl (fun marks s => marks.set s.position true) (List.replicate n false)

end Table

end JsonTree
