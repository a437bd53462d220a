import JsonTree.Live.Access

/-!
# Paths into a live value

A path leads from a value to a part of it, by keys of objects and indices of arrays. It resolves
only where every step finds something. A part can be changed in place: the steps above it are
rebuilt around the new part. Each object that is asked for a key on the way has been looked up in,
and so it may have an index afterwards even where nothing else has changed.

## Main definitions

- `Live.at?`: the part that a path leads to.
- `Live.modifyAt`: the value with that part changed.
-/

namespace JsonTree.Live

open Value (Step)

/-- The part that one step leads to. -/
def step? (v : Live) : Step → Option Live
  | .key bytes => v.get? bytes
  | .index i => v.getIdx? i

/-- The value after a step was looked up in it. -/
def asked (v : Live) : Step → Live
  | .key _ =>
    match v with
    | .object rows storage => .ofObject (Object.indexed ⟨storage, rows⟩)
    | v => v
  | .index _ => v

/-- The value with the part that a step leads to replaced by another. -/
def replaceStep (v : Live) (part : Live) : Step → Live
  | .key bytes =>
    match v with
    | .object rows storage =>
      .ofObject ((Object.indexed ⟨storage, rows⟩).modify bytes fun _ => part)
    | v => v
  | .index i =>
    match v with
    | .array elements => .array (elements.set i part)
    | v => v

/-- The part that a path leads to. -/
def at? (v : Live) : List Step → Option Live
  | [] => some v
  | step :: path => do
    let part ← v.step? step
    part.at? path

/-- Change the part that a path leads to: what the change gives, unless the path does not resolve,
and the value afterwards. -/
def modifyAt {ε α : Type} (v : Live) (change : Live → Except ε (α × Live)) :
    List Step → Option (Except ε α) × Live
  | [] =>
    match change v with
    | .ok (answer, v) => (some (.ok answer), v)
    | .error e => (some (.error e), v)
  | step :: path =>
    match v.step? step with
    | none => (none, v.asked step)
    | some part =>
      let (outcome, part) := part.modifyAt change path
      (outcome, v.replaceStep part step)

/-- The value after a path was looked up from it. -/
def looked (v : Live) (path : List Step) : Live :=
  (v.modifyAt (fun part => (.ok ((), part) : Except Empty (Unit × Live))) path).2

end JsonTree.Live
