import JsonTree.Text

/-!
# Rows

The contents of an object are rows, each a key and a value, in storage order. A key may come more
than once; which row counts then is for the object to say.

## Main definitions

- `Rows`: keys and values, in storage order.
- `Rows.first?`, `Rows.last?`, `Rows.hasKey`: rows by key.
-/

namespace JsonTree

/-- The rows of an object, in storage order. -/
abbrev Rows (σ α : Type) := List (Held σ × α)

namespace Rows

variable {σ α : Type} [Readable σ]

/-- The position of the first row with a key. -/
def first? (rows : Rows σ α) (key : Bytes) : Option Nat := rows.findIdx? (·.1.bytes == key)

/-- The position of the last row with a key. -/
def last? (key : Bytes) : Rows σ α → Option Nat
  | [] => none
  | row :: rows =>
    match last? key rows with
    | some i => some (i + 1)
    | none => if row.1.bytes == key then some 0 else none

/-- Whether some row has a key. -/
def hasKey (rows : Rows σ α) (key : Bytes) : Bool := rows.any (·.1.bytes == key)

end Rows

end JsonTree
