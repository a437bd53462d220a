import JsonTree.Object.Table

/-!
# Objects

An object is a list of rows, each a key and a value, in the order in which the keys were first
stored. Small objects are searched row by row and the first row with a key counts; from
`indexThreshold` rows on the key index is asked, and the last row counts. Keys are meant to be
distinct: `insert` keeps them so, and `append` leaves it to a later `finalize`, which keeps the last
row of each key.

The rows have room for a number of rows. When it is used up they are laid out anew, and the index is
filed anew with them. The index is made by a lookup in a large object or by its `finalize`, kept up
by `append`, and dropped by `remove`, `clear` and copying. `finalize` of a small object takes rows
out without a look at the index, whose slots keep the positions that they had.

## Main definitions

- `Object`: rows, and their `Storage` with room, blocks and index.
- `Object.get?`, `Object.insert`, `Object.remove`: by key.
- `Object.indexed`: the object after a lookup.
- `Object.append`, `Object.finalize`: storing unchecked, and dropping repeated keys afterwards.
- `Object.sweep`: moving the marked rows to the front.
- `Object.equals`: comparison without regard to order.
-/

namespace JsonTree

/-- The number of rows from which on lookup goes through the index. -/
abbrev indexThreshold : Nat := 16

/-- What an object has beside its rows. -/
structure Storage where
  /-- How many rows fit before they are laid out anew. -/
  room : Nat
  /-- The blocks that the places of the rows hold. -/
  blocks : Blocks
  /-- The key index, if there is one. -/
  index : Option Table

/-- A keyed container that keeps the order of insertion. -/
structure Object (σ α : Type) extends Storage where
  /-- The keys and values, in storage order. -/
  rows : Rows σ α

namespace Object

variable {σ α : Type}

/-! ## §1 Making objects -/

/-- The object without rows. -/
def empty : Object σ α := ⟨⟨0, [], none⟩, []⟩

/-- The object of given rows, laid out tightly. -/
def ofRows (rows : Rows σ α) : Object σ α := ⟨⟨rows.length, .ofRows rows, none⟩, rows⟩

/-- The number of rows. -/
def size (o : Object σ α) : Nat := o.rows.length

/-- Take all rows out. The room stays. -/
def clear (o : Object σ α) : Object σ α := { o with rows := [], blocks := [], index := none }

/-- A copy, which is laid out tightly and has no index. -/
def copy (o : Object σ α) : Object σ α := ofRows o.rows

/-- Copy the rows of another object into this one, which keeps its room if they fit. -/
def assign (o source : Object σ α) : Object σ α :=
  if o.room < source.size then source.copy
  else ⟨⟨o.room, o.blocks.refitAll source.rows, none⟩, source.rows⟩

/-- Hand over the rows with their room and index, and what is left behind: the empty object. -/
def handOver (o : Object σ α) : Object σ α × Object σ α := (o, empty)

/-- Change the value of the row at a position. -/
def modifyAt (o : Object σ α) (i : Nat) (f : α → α) : Object σ α :=
  { o with rows := o.rows.modify i fun row => (row.1, f row.2) }

/-- Change all values. -/
def map (o : Object σ α) (f : α → α) : Object σ α :=
  { o with rows := o.rows.map fun row => (row.1, f row.2) }

/-! ## §2 Moving rows -/

/-- Move the row at one place to another. The index learns nothing of it. -/
def shift (o : Object σ α) (source target : Nat) : Object σ α :=
  match o.rows[source]? with
  | none => o
  | some row =>
    let (changes, blocks) := o.blocks.move row.1.ownedBytes source target
    { o with
      rows := o.rows.set target row
      blocks
      index := o.index.map (·.after changes) }

/-- Give up the rows from a place on, with their blocks. -/
def truncate (o : Object σ α) (n : Nat) : Object σ α :=
  { o with
    rows := o.rows.take n
    blocks := o.blocks.take n
    index := o.index.map (·.after [.giveUp n]) }

/-- Move the marked rows to the front and give up the others. The marks are those of the rows from
`i` on, and the next marked row goes to the place `write`. -/
def sweep (o : Object σ α) : List Bool → Nat → Nat → Object σ α
  | [], _, write => o.truncate write
  | false :: marks, i, write => sweep o marks (i + 1) write
  | true :: marks, i, write =>
    sweep (if write = i then o else o.shift i write) marks (i + 1) (write + 1)

/-- Take out the row at a position. The rows behind it move up. -/
def takeOut (o : Object σ α) (i : Nat) : Object σ α :=
  o.sweep ((List.replicate o.size true).set i false) 0 0

variable [Readable σ]

/-! ## §3 The index and lookup -/

/-- The table that all rows are filed in anew. It has the buckets of the one that was there. -/
def refiled (o : Object σ α) : Table :=
  .ofRows (o.index.elim (bucketsFor (2 * o.size)) Table.buckets) o.rows o.blocks

/-- The object after its rows were laid out anew: an index that is there is filed anew. -/
def relocated (o : Object σ α) : Object σ α := { o with index := o.index.map fun _ => o.refiled }

/-- Make room for a number of rows. Where there is less, the rows are laid out anew. -/
def reserve (o : Object σ α) (n : Nat) : Object σ α :=
  if o.room < n then { o with room := n }.relocated else o

/-- The table that a large object is searched with: its index, or one that is made for the
occasion. -/
def table (o : Object σ α) : Table := o.index.getD o.refiled

/-- The position of the row that counts for a key. A position beyond the rows is none. -/
def position? (o : Object σ α) (key : Bytes) : Option Nat :=
  if o.size < indexThreshold then o.rows.first? key
  else (o.table.position? key).filter (· < o.size)

/-- The object after a lookup. A large object has an index from then on. -/
def indexed (o : Object σ α) : Object σ α :=
  if o.size < indexThreshold then o else { o with index := some o.table }

/-- The value that counts for a key. -/
def get? (o : Object σ α) (key : Bytes) : Option α := do
  let i ← o.position? key
  let row ← o.rows[i]?
  some row.2

/-- Whether a key is found. -/
def contains (o : Object σ α) (key : Bytes) : Bool := (o.position? key).isSome

/-- Change the value that counts for a key. -/
def modify (o : Object σ α) (key : Bytes) (f : α → α) : Object σ α :=
  match o.position? key with
  | none => o
  | some i => o.modifyAt i f

/-! ## §4 Storing and removing -/

/-- Add a row at the end, whether or not its key is there already. An index that is there files it.
Where the room is used up it is doubled. -/
def append (o : Object σ α) (key : Held σ) (value : α) : Object σ α :=
  let rows := o.rows ++ [(key, value)]
  let blocks := o.blocks ++ [Blocks.ofKey key]
  if o.size < o.room then
    { o with
      rows
      blocks
      index := o.index.map fun t =>
        (t.after [Blocks.placed o.size key]).file (blocks.spot o.size key) key.bytes o.size }
  else
    { o with rows, blocks, room := max 1 (2 * o.size) }.relocated

/-- Store a value under a key, and tell the value that it replaces. A key that is there already
stays where and as it is. -/
def insert (o : Object σ α) (key : Held σ) (value : α) : Option α × Object σ α :=
  match o.position? key.bytes with
  | some i => ((o.rows[i]?).map (·.2), o.indexed.modifyAt i fun _ => value)
  | none => (none, o.indexed.append key value)

/-- Take out the row that counts for a key, and tell its value. The index is dropped. -/
def remove (o : Object σ α) (key : Bytes) : Option α × Object σ α :=
  match o.position? key with
  | some i => ((o.rows[i]?).map (·.2), { o.takeOut i with index := none })
  | none => (none, o.indexed)

/-! ## §5 Dropping repeated keys -/

/-- Whether the key of the row at a position comes again in a later row. -/
def isRepeated (o : Object σ α) (i : Nat) : Bool :=
  match o.rows.drop i with
  | [] => false
  | row :: rows => Rows.hasKey rows row.1.bytes

/-- Look at a number of rows from a position on, and take out those whose key comes again later. -/
def settle : Nat → Nat → Object σ α → Object σ α
  | 0, _, o => o
  | n + 1, i, o => if o.isRepeated i then settle n i (o.takeOut i) else settle n (i + 1) o

/-- File all rows anew. If the table has fewer slots than there are rows, the rows that it leads to
are moved together without an index, and get one of their own. -/
def compact (o : Object σ α) : Object σ α :=
  let t := o.refiled
  if t.chain.length < o.size then
    let o := { o with index := none }.sweep (t.marks o.size) 0 0
    { o with index := some o.refiled }
  else { o with index := some t }

/-- Keep only the last row of each key. A large object keeps the rows that a fresh index leads to
and has an index afterwards; a small one takes the others out one by one. -/
def finalize (o : Object σ α) : Object σ α :=
  if o.size < indexThreshold then settle o.size 0 o else o.compact

/-- The object of rows that may repeat keys: all are appended, and then repeated keys dropped. -/
def collect (rows : Rows σ α) : Object σ α :=
  (rows.foldl (fun o row => o.append row.1 row.2) (empty.reserve rows.length)).finalize

/-! ## §6 Comparison -/

/-- Comparison without regard to order: equally many rows, and for each row of the first object an
equal value under its key in the second. -/
def equals (same : α → α → Bool) (o other : Object σ α) : Bool :=
  o.size == other.size &&
    o.rows.all fun row =>
      match other.get? row.1.bytes with
      | some value => same value row.2
      | none => false

end Object

end JsonTree
