import JsonTree.Live.Equality
import JsonTree.Proofs.Live.Changes
import JsonTree.Proofs.Value.Equality

/-!
# Fresh live values behave like their contents

Where no index is stale, rooms, blocks, indices and buffers cannot be seen: lookups, changes and
comparisons of live values are those of their contents. At the level of one object this is a
relabelling of its rows. Along a path, the objects that are asked on the way may have an index
afterwards, which changes nothing that can be asked.

## Main statements

- `Live.Fresh.contents_at?`: lookups along a path.
- `Live.Fresh.contents_modifyAt`: a change at the end of a path.
- `Live.Fresh.contents_mutate`: each of the changes there.
- `Live.equals_eq_contents`: equality.
-/

namespace JsonTree.Live

open Value (Step Mutator)

variable {v : Live} {o : Object Slice Live}

/-! ## §1 Lookups -/

theorem contents_ofObject (o : Object Slice Live) :
    (ofObject o).contents = .object (o.rows.map (Prod.map Held.text contents)) :=
  congrArg Value.object (contentsOfRows_eq_map o.rows)

theorem Fresh.contents_get? (h : v.Fresh) (key : Bytes) :
    v.contents.get? key = (v.get? key).map contents := by
  cases v with
  | object rows storage =>
    rw [contents, contentsOfRows_eq_map]
    exact h.object.1.followsRows.get?_relabelled Held.bytes_text key
  | null | bool | i64 | f64 | string | array => rfl

theorem contents_getIdx? (v : Live) (i : Nat) :
    v.contents.getIdx? i = (v.getIdx? i).map contents := by
  cases v with
  | array elements =>
    rw [contents, contentsOfElements_eq_map]
    exact List.getElem?_map
  | null | bool | i64 | f64 | string | object => rfl

theorem Fresh.contents_step? (h : v.Fresh) (s : Step) :
    v.contents.step? s = (v.step? s).map contents := by
  cases s with
  | key bytes => exact h.contents_get? bytes
  | index i => exact contents_getIdx? v i

theorem Fresh.contents_at? (h : v.Fresh) (path : List Step) :
    v.contents.at? path = (v.at? path).map contents := by
  induction path generalizing v with
  | nil => rfl
  | cons s path ih =>
    rw [Value.at?, Live.at?, h.contents_step?]
    cases hpart : v.step? s with
    | none => rfl
    | some part => exact ih (h.of_part (part_of_step? hpart))

/-! ## §2 Changes of one container -/

/-- A result of a live change, as its contents have it. -/
abbrev contentsOfResult : Option Live × Live → Option Value × Value :=
  Prod.map (Option.map contents) contents

theorem Fresh.contents_insert (h : v.Fresh) (key : Held Slice) (member : Live) :
    v.contents.insert key.text member.contents =
      (v.insert key member).map contentsOfResult := by
  cases v with
  | object rows storage =>
    have hinsert :=
      h.object.1.followsRows.insert_relabelled Held.bytes_text key member (f := contents)
    rw [contents, contentsOfRows_eq_map]
    simp only [Value.insert, Live.insert, Except.map, contentsOfResult, Prod.map, contents_ofObject]
    exact congrArg (fun p : Option Value × Rows Bytes Value => Except.ok (p.1, Value.object p.2))
      hinsert
  | null | bool | i64 | f64 | string | array => rfl

theorem Fresh.contents_remove (h : v.Fresh) (key : Bytes) :
    v.contents.remove key = (v.remove key).map contentsOfResult := by
  cases v with
  | object rows storage =>
    have hremove := h.object.1.followsRows.remove_relabelled Held.bytes_text key (f := contents)
    rw [contents, contentsOfRows_eq_map]
    simp only [Value.remove, Live.remove, Except.map, contentsOfResult, Prod.map, contents_ofObject]
    exact congrArg (fun p : Option Value × Rows Bytes Value => Except.ok (p.1, Value.object p.2))
      hremove
  | null | bool | i64 | f64 | string | array => rfl

theorem contents_push (v element : Live) :
    v.contents.push element.contents = (v.push element).map contents := by
  cases v with
  | array elements =>
    simp only [contents, Value.push, Live.push, contentsOfElements_eq_map, Except.map,
      List.map_append, List.map_singleton]
  | null | bool | i64 | f64 | string | object => rfl

theorem contents_pop (v : Live) : v.contents.pop = v.pop.map contentsOfResult := by
  cases v with
  | array elements =>
    simp only [contents, Value.pop, Live.pop, contentsOfElements_eq_map, Except.map,
      contentsOfResult, Prod.map, List.getLast?_map, List.map_dropLast]
  | null | bool | i64 | f64 | string | object => rfl

/-! ## §3 Steps -/

/-- A lookup leaves the contents alone. -/
theorem contents_asked (v : Live) (s : Step) : (v.asked s).contents = v.contents := by
  cases s with
  | key bytes =>
    cases v with
    | object rows storage =>
      rw [asked, contents_ofObject, Object.indexed_rows, contents, contentsOfRows_eq_map]
    | null | bool | i64 | f64 | string | array => rfl
  | index i => rfl

theorem Fresh.contents_replaceStep (h : v.Fresh) (part : Live) (s : Step) :
    (v.replaceStep part s).contents = v.contents.replaceStep part.contents s := by
  cases s with
  | key bytes =>
    cases v with
    | object rows storage =>
      -- The lookup that found the part has made the index already.
      have hmodify := h.object.1.indexed.followsRows.modify_relabelled Held.bytes_text bytes part
        (f := contents)
      rw [Object.indexed_rows] at hmodify
      rw [replaceStep, contents_ofObject, contents, contentsOfRows_eq_map, ← hmodify]
      rfl
    | null | bool | i64 | f64 | string | array => rfl
  | index i =>
    cases v with
    | array elements =>
      simp only [replaceStep, contents, contentsOfElements_eq_map, Value.replaceStep, List.map_set]
    | null | bool | i64 | f64 | string | object => rfl

/-! ## §4 Paths -/

section

variable {ε α β : Type} {change : Live → Except ε (α × Live)}
  {change' : Value → Except ε (β × Value)} {g : α → β}

/-- Where a change of fresh values is a change of their contents, it is so at the end of any
path. -/
theorem Fresh.contents_modifyAt
    (hchange : ∀ w : Live, w.Fresh → change' w.contents = (change w).map (Prod.map g contents))
    (h : v.Fresh) (path : List Step) :
    v.contents.modifyAt change' path =
      ((v.modifyAt change path).1.map (Except.map g), (v.modifyAt change path).2.contents) := by
  induction path generalizing v with
  | nil =>
    rw [Value.modifyAt, Value.modifyAt?, hchange v h, Live.modifyAt]
    cases change v <;> rfl
  | cons s path ih =>
    rw [Live.modifyAt, Value.modifyAt_cons, h.contents_step?]
    cases hpart : v.step? s with
    | none => exact Prod.ext rfl (contents_asked v s).symm
    | some part =>
      -- Both go down to one part, and each rebuilds its container around what it made of it.
      have hinner := ih (h.of_part (part_of_step? hpart))
      simp only [Option.map_some, hinner, h.contents_replaceStep]

end

/-- The contents of a change. -/
def contentsOfMutator : Mutator Slice Live → Mutator Bytes Value
  | .insert key member => .insert key.text member.contents
  | .remove key => .remove key
  | .push element => .push element.contents
  | .pop => .pop
  | .assign v => .assign v.contents

theorem Fresh.contents_apply (h : v.Fresh) (m : Mutator Slice Live) :
    v.contents.apply (contentsOfMutator m) = (v.apply m).map contentsOfResult := by
  cases m with
  | insert key member => exact h.contents_insert key member
  | remove key => exact h.contents_remove key
  | push element =>
    rw [contentsOfMutator, Value.apply, contents_push, apply]
    cases v.push element <;> rfl
  | pop => exact contents_pop v
  | assign w => rfl

/-- A change at the end of a path is that change of the contents. -/
theorem Fresh.contents_mutate (h : v.Fresh) (path : List Step) (m : Mutator Slice Live) :
    v.contents.mutate path (contentsOfMutator m) =
      ((v.mutate path m).1.map (Except.map (Option.map contents)), (v.mutate path m).2.contents) :=
  h.contents_modifyAt (fun _ hw => hw.contents_apply m) path

/-! ## §5 Equality -/

mutual

/-- Equality is equality of contents, unless an index that is searched is stale. -/
theorem equals_eq_contents (v w : Live) (hw : w.Fresh) :
    v.equals w = v.contents.equals w.contents := by
  cases v with
  | array elements =>
    cases w with
    | array others => exact equalsElements_eq_contents elements others (everyObject_array_iff.mp hw)
    | null | bool | i64 | f64 | string | object => rfl
  | object rows =>
    cases w with
    | object others storage =>
      -- The index is made by the first lookup at the latest, which changes no row.
      obtain ⟨ho, hrows⟩ := hw.object
      have heq := equalsRows_eq_contents rows (Object.indexed ⟨storage, others⟩) ho.indexed
        (Object.forall_indexed hrows)
      rw [Object.indexed_rows] at heq
      simp only [equals, heq, contents, Value.equals, contentsOfRows_eq_map, List.length_map]
    | null | bool | i64 | f64 | string | array => rfl
  | string t =>
    cases w with
    | string t' => simp only [equals, contents, Value.equals, Held.bytes_text]
    | null | bool | i64 | f64 | array | object => rfl
  | null | bool | i64 | f64 => cases w <;> rfl

theorem equalsElements_eq_contents (elements others : List Live) (h : ∀ w ∈ others, w.Fresh) :
    equalsElements elements others =
      Value.equalsElements (contentsOfElements elements) (contentsOfElements others) := by
  cases elements with
  | nil => cases others <;> rfl
  | cons v elements =>
    cases others with
    | nil => rfl
    | cons w others =>
      obtain ⟨hw, hothers⟩ := List.forall_mem_cons.mp h
      simp only [equalsElements, contentsOfElements, Value.equalsElements,
        equals_eq_contents v w hw, equalsElements_eq_contents elements others hothers]

theorem equalsRows_eq_contents (rows : List (Held Slice × Live)) (o : Object Slice Live)
    (ho : o.Fresh) (h : ∀ row ∈ o.rows, row.2.Fresh) :
    equalsRows rows o =
      Value.equalsRows (contentsOfRows rows) (.ofRows (contentsOfRows o.rows)) := by
  cases rows with
  | nil => rfl
  | cons row rows =>
    obtain ⟨key, v⟩ := row
    have hvalue := equals_eq_contents v
    have hget := ho.followsRows.get?_relabelled Held.bytes_text key.bytes (f := contents)
    rw [← contentsOfRows_eq_map] at hget
    simp only [equalsRows, contentsOfRows, Value.equalsRows, Held.bytes_text, hget,
      equalsRows_eq_contents rows o ho h]
    -- Both lookups find the same row, or none.
    cases hfound : o.get? key.bytes with
    | none => rfl
    | some w => simp only [Option.map_some, hvalue w (Object.of_get?_eq_some h hfound)]

end

end JsonTree.Live
