import JsonTree.Proofs.Shape.Outcome

/-!
# The depth of encoding

The encoder counts the containers that it has opened around the datum that it is encoding. A datum
at some place in a shape is therefore encoded at the depth that the place has in the shape, or it is
not reached at all, because something before it fails.

## Main definitions

- `Shape.Context`: a shape with a hole in it, with `Shape.Context.fill` and `Shape.Context.levels`.
- `Shape.Reaches`: what encoding with a hole comes to, whatever stands in the hole.

## Main statements

- `Shape.Context.reaches`: the hole is reached at the depth of its place, or not at all.
- `Shape.encode_fill_depth`: a datum sees the number of containers around it.
-/

namespace JsonTree.Shape

variable {limit : Nat}

/-! ## §1 Shapes with a hole -/

/-- A shape with a hole in it, where a datum may stand. The hole is not in the key of an entry. -/
inductive Context where
  | hole
  | present (inner : Context)
  | newtypeStruct (inner : Context)
  | newtypeVariant (name : Bytes) (inner : Context)
  | seq (before : List Shape) (inner : Context) (after : List Shape)
  | tuple (before : List Shape) (inner : Context) (after : List Shape)
  | tupleStruct (before : List Shape) (inner : Context) (after : List Shape)
  | tupleVariant (name : Bytes) (before : List Shape) (inner : Context) (after : List Shape)
  | map (before : List (Shape × Shape)) (key : Shape) (inner : Context)
      (after : List (Shape × Shape))
  | struct (before : List (Bytes × Shape)) (name : Bytes) (inner : Context)
      (after : List (Bytes × Shape))
  | structVariant (variant : Bytes) (before : List (Bytes × Shape)) (name : Bytes)
      (inner : Context) (after : List (Bytes × Shape))

namespace Context

/-- The shape with a datum in the hole. -/
def fill (datum : Shape) : Context → Shape
  | .hole => datum
  | .present inner => .present (inner.fill datum)
  | .newtypeStruct inner => .newtypeStruct (inner.fill datum)
  | .newtypeVariant name inner => .newtypeVariant name (inner.fill datum)
  | .seq before inner after => .seq (before ++ inner.fill datum :: after)
  | .tuple before inner after => .tuple (before ++ inner.fill datum :: after)
  | .tupleStruct before inner after => .tupleStruct (before ++ inner.fill datum :: after)
  | .tupleVariant name before inner after =>
    .tupleVariant name (before ++ inner.fill datum :: after)
  | .map before key inner after => .map (before ++ (key, inner.fill datum) :: after)
  | .struct before name inner after => .struct (before ++ (name, inner.fill datum) :: after)
  | .structVariant variant before name inner after =>
    .structVariant variant (before ++ (name, inner.fill datum) :: after)

/-- The number of containers around the hole. The payload of a tuple or struct variant is a
container of its own in the object around the variant; optional and wrapped data are no
containers. -/
def levels : Context → Nat
  | .hole => 0
  | .present inner | .newtypeStruct inner => inner.levels
  | .newtypeVariant _ inner => 1 + inner.levels
  | .seq _ inner _ | .tuple _ inner _ | .tupleStruct _ inner _ => 1 + inner.levels
  | .map _ _ inner _ | .struct _ _ inner _ => 1 + inner.levels
  | .tupleVariant _ _ inner _ | .structVariant _ _ _ inner _ => 2 + inner.levels

end Context

/-! ## §2 Reaching the hole -/

/-- What encoding with a hole comes to, whatever stands in the hole. -/
inductive Reaches {α : Type} (limit level : Nat) (run : Shape → Except EncodeError α) : Prop where
  /-- It fails before the hole is reached. -/
  | before (e : EncodeError) : (∀ datum, run datum = .error e) → Reaches limit level run
  /-- The datum in the hole is encoded at a level within the limit, and it is only its value that
  matters afterwards. -/
  | within (rest : Live → Except EncodeError α) : level ≤ limit →
      (∀ datum, run datum = datum.encodeAt limit level >>= rest) → Reaches limit level run

section

variable {α β : Type} {depth level : Nat}

/-- A step after the hole. -/
theorem Reaches.bind {run : Shape → Except EncodeError α} (h : Reaches limit level run)
    (f : α → Except EncodeError β) : Reaches limit level fun datum => run datum >>= f := by
  cases h with
  | before e he =>
    refine .before e fun datum => ?_
    simp only [he]
    rfl
  | within rest hlevel hrest =>
    refine .within (fun v => rest v >>= f) hlevel fun datum => ?_
    simp only [hrest, bind_assoc]

theorem Reaches.map {run : Shape → Except EncodeError α} (h : Reaches limit level run)
    (f : α → β) : Reaches limit level fun datum => f <$> run datum := by
  simp only [← bind_pure_comp]
  exact h.bind fun a => pure (f a)

/-- A step before the hole. -/
theorem Reaches.after {run : β → Shape → Except EncodeError α} (x : Except EncodeError β)
    (h : ∀ b, x = .ok b → Reaches limit level (run b)) :
    Reaches limit level fun datum => x >>= fun b => run b datum := by
  cases x with
  | error e => exact .before e fun _ => rfl
  | ok b => exact h b rfl

/-- A container around the hole. -/
theorem Reaches.opened {run : Nat → Shape → Except EncodeError α}
    (h : depth + 1 ≤ limit → Reaches limit level (run (depth + 1))) :
    Reaches limit level fun datum => descend limit depth >>= fun inner => run inner datum := by
  refine .after (descend limit depth) fun inner hinner => ?_
  rw [descend] at hinner
  split at hinner
  · cases hinner
  · cases hinner
    exact h (Nat.le_of_not_lt ‹_›)

end

section

variable {depth level : Nat} {filled : Shape → Shape}
  (h : Reaches limit level fun datum => (filled datum).encodeAt limit depth)
include h

/-- The hole is in an element. -/
theorem Reaches.elements (before after : List Shape) :
    Reaches limit level fun datum =>
      encodeElements limit depth (before ++ filled datum :: after) := by
  induction before with
  | nil =>
    exact h.bind fun v => encodeElements limit depth after >>= fun vs => .ok (v :: vs)
  | cons first before ih =>
    exact .after (first.encodeAt limit depth) fun v _ => ih.bind fun vs => .ok (v :: vs)

/-- The hole is in the value of an entry. -/
theorem Reaches.entries (before : List (Shape × Shape)) (key : Shape) (after : List (Shape × Shape))
    (o : Object Slice Live) :
    Reaches limit level fun datum =>
      encodeEntries limit depth o (before ++ (key, filled datum) :: after) := by
  induction before generalizing o with
  | nil =>
    exact .after key.key fun text _ => h.bind fun v =>
      encodeEntries limit depth (store o text v) after
  | cons first before ih =>
    exact .after first.1.key fun text _ =>
      .after (first.2.encodeAt limit depth) fun v _ => ih (store o text v)

/-- The hole is in a field. -/
theorem Reaches.fields (before : List (Bytes × Shape)) (name : Bytes) (after : List (Bytes × Shape))
    (o : Object Slice Live) :
    Reaches limit level fun datum =>
      encodeFields limit depth o (before ++ (name, filled datum) :: after) := by
  induction before generalizing o with
  | nil => exact h.bind fun v => encodeFields limit depth (store o name v) after
  | cons first before ih =>
    exact .after (first.2.encodeAt limit depth) fun v _ => ih (store o first.1 v)

end

/-- The hole is reached at the depth of its place, or not at all. -/
theorem Context.reaches (context : Context) {depth : Nat} (hdepth : depth ≤ limit) :
    Reaches limit (depth + context.levels) fun datum =>
      (context.fill datum).encodeAt limit depth := by
  induction context generalizing depth with
  | hole => exact .within .ok hdepth fun datum => (bind_pure _).symm
  | present inner ih => exact ih hdepth
  | newtypeStruct inner ih => exact ih hdepth
  | newtypeVariant name inner ih =>
    rw [levels, ← Nat.add_assoc]
    exact .opened fun hinner => (ih hinner).map (single name)
  | seq before inner after ih | tuple before inner after ih | tupleStruct before inner after ih =>
    rw [levels, ← Nat.add_assoc]
    exact .opened fun hinner => ((ih hinner).elements before after).map Live.array
  | tupleVariant name before inner after ih =>
    rw [levels, ← Nat.add_assoc]
    -- The object around the variant is one container, and its payload another.
    exact .opened fun _ => .opened fun hinner =>
      ((ih hinner).elements before after).map fun vs => single name (.array vs)
  | map before key inner after ih =>
    rw [levels, ← Nat.add_assoc]
    exact .opened fun hinner =>
      ((ih hinner).entries before key after .empty).map Live.ofObject
  | struct before name inner after ih =>
    rw [levels, ← Nat.add_assoc]
    exact .opened fun hinner =>
      ((ih hinner).fields before name after .empty).map Live.ofObject
  | structVariant variant before name inner after ih =>
    rw [levels, ← Nat.add_assoc]
    exact .opened fun _ => .opened fun hinner =>
      ((ih hinner).fields before name after .empty).map fun o => single variant (.ofObject o)

/-- A datum that describes itself as its depth is encoded as the number of containers around it. -/
theorem encode_fill_depth (requested : Nat) (context : Context) :
    encode requested (context.fill .depth) =
      encode requested (context.fill (.int .u64 context.levels)) := by
  have hreaches := context.reaches (Nat.zero_le (effectiveDepth requested))
  rw [Nat.zero_add] at hreaches
  cases hreaches with
  | before e he =>
    exact congrArg (Live.contents <$> ·) ((he .depth).trans (he (.int .u64 context.levels)).symm)
  | within rest _ hrest =>
    exact congrArg (Live.contents <$> ·)
      ((hrest .depth).trans (hrest (.int .u64 context.levels)).symm)

end JsonTree.Shape
