import JsonTree.Error
import JsonTree.Shape

/-!
# Map keys

The key of a map entry must come down to a text: a text itself, the name of a unit variant, or
structs that wrap one of these. Every other shape is refused as it is met, without a look inside.
The shapes that are asked on the way are noted.

## Main definitions

- `Shape.askKey`: the text that a shape gives as a key, and the shapes that were asked for it.
- `Shape.key`: the text alone.
-/

namespace JsonTree

/-- The failure of a shape that cannot be a key. -/
def EncodeError.keyNotString : EncodeError := ⟨.keyNotString, none⟩

/-- Ask a shape for a key: what it answers, and the shapes that were asked, in order. -/
def Shape.askKey : Shape → Except EncodeError Bytes × List Shape
  | .text content => (.ok content, [.text content])
  | .unitVariant name => (.ok name, [.unitVariant name])
  | .newtypeStruct datum =>
    let (answer, asked) := datum.askKey
    (answer, .newtypeStruct datum :: asked)
  | s => (.error .keyNotString, [s])

/-- The text that a shape gives as a key. -/
def Shape.key (s : Shape) : Except EncodeError Bytes := s.askKey.1

end JsonTree
