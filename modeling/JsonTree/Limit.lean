/-!
# Depth limits

Decoding and encoding both stop at a greatest nesting of containers, against runaway depth. A limit
of zero asks for the default.
-/

namespace JsonTree

/-- The greatest nesting of containers where none is asked for. -/
abbrev defaultDepth : Nat := 512

/-- The greatest nesting that a requested limit allows. -/
def effectiveDepth (requested : Nat) : Nat := if requested = 0 then defaultDepth else requested

end JsonTree
