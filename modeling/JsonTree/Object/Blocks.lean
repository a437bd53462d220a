import JsonTree.Object.Rows

/-!
# Where the keys of an object lie

The rows of an object stand in numbered places. A place has a cell of its own, in which a short
owned key lies, and it may hold a block, which is made for a long owned key. A place keeps its block
when the row in it changes, and then a short key lies in the block as well. A key that leaves a
place leaves it empty, and a key that lies in a block takes the block along, in exchange for the
block of the place where it goes. Borrowed bytes lie outside the object.

None of this can be seen in the rows. It decides what is read at a spot to which some key once
came: the key that lies there now, and behind its end what was there before.

## Main definitions

- `Spot`: where bytes lie.
- `Blocks`: the size of the block that each place holds.
- `Change`: what happens to spots when keys come and go.
- `Blocks.move`: moving a key from one place to another.
-/

namespace JsonTree

/-! ## §1 Spots -/

/-- The most bytes that a cell has room for. -/
abbrev cellLimit : Nat := 15

/-- Where bytes lie. -/
inductive Spot where
  /-- Outside the object, or nowhere any more; such bytes do not change. -/
  | outside
  /-- In the cell of a place. -/
  | cell (i : Nat)
  /-- In the block that a place holds. -/
  | block (i : Nat)
deriving DecidableEq

/-- A change of what lies where. -/
inductive Change where
  /-- Bytes are put at the beginning of a spot. -/
  | write (spot : Spot) (bytes : Bytes)
  /-- Two places exchange their blocks. -/
  | exchange (i j : Nat)
  /-- The blocks of all places from one on are given up. -/
  | giveUp (i : Nat)
deriving DecidableEq

/-! ## §2 Blocks -/

/-- For each place the size of the block that it holds, if it holds one. -/
abbrev Blocks := List (Option Nat)

namespace Blocks

variable {σ α : Type}

/-- The block that is made for a new key. -/
def ofKey (key : Held σ) : Option Nat :=
  if cellLimit < key.ownedBytes.length then some key.ownedBytes.length else none

/-- The blocks of rows that are laid out for the first time. -/
def ofRows (rows : Rows σ α) : Blocks := rows.map fun row => ofKey row.1

/-- The size of the block that a place holds. -/
def size? (blocks : Blocks) (i : Nat) : Option Nat := do
  let held ← blocks[i]?
  held

/-- Where an owned key lies in a place. -/
def home (blocks : Blocks) (i : Nat) : Spot :=
  if (blocks.size? i).isSome then .block i else .cell i

/-- Where the key lies whose row stands in a place. -/
def spot (blocks : Blocks) (i : Nat) (key : Held σ) : Spot :=
  if key.isBorrowed then .outside else blocks.home i

/-- What a key leaves where it is written: its bytes and a zero byte. -/
def terminated (bytes : Bytes) : Bytes := bytes ++ [0]

/-- What a block leaves in the cell of its place: its size, least significant byte first. -/
def sizeNote (size : Nat) : Bytes := (List.range 8).map fun i => UInt8.ofNat (size >>> (8 * i))

/-- The change when a new key comes to a place that was not in use. -/
def placed (i : Nat) (key : Held σ) : Change :=
  .write (.cell i) <|
    match ofKey key with
    | some size => sizeNote size
    | none => terminated key.ownedBytes

/-! ## §3 Moving keys -/

/-- Move a key from one place to another, given the bytes that it owns. Without a block of its own
it is written where it goes; otherwise the blocks of the two places are exchanged. What it leaves
behind is empty. -/
def move (blocks : Blocks) (bytes : Bytes) (source target : Nat) : List Change × Blocks :=
  match blocks.size? source with
  | none =>
    ([.write (blocks.home target) (terminated bytes), .write (.cell source) (terminated [])],
      blocks)
  | some size =>
    let other := blocks.size? target
    let left :=
      match other with
      | none => [.write (.cell source) (terminated [])]
      | some otherSize =>
        [.write (.cell source) (sizeNote otherSize), .write (.block source) (terminated [])]
    (.exchange source target :: .write (.cell target) (sizeNote size) :: left,
      (blocks.set target (some size)).set source other)

/-! ## §4 Copying keys -/

/-- The block of a place to which the bytes of a key are copied: the one that is there if it has
room for them, else a new one, which is at least twice as large. -/
def refit (held : Option Nat) (key : Held σ) : Option Nat :=
  let room := held.getD cellLimit
  if key.ownedBytes.length ≤ room then held else some (max key.ownedBytes.length (2 * room))

/-- The blocks after rows have been copied over those that were there. -/
def refitAll : Blocks → Rows σ α → Blocks
  | _, [] => []
  | [], row :: rows => ofKey row.1 :: refitAll [] rows
  | held :: blocks, row :: rows => refit held row.1 :: refitAll blocks rows

end Blocks

end JsonTree
