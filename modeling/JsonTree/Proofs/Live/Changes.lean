import JsonTree.Proofs.Live.Everywhere
import JsonTree.Proofs.Object.Values
import JsonTree.Proofs.Result
import JsonTree.Proofs.Value.Context

/-!
# What changes of live values keep

A property of objects that the operations of objects keep is kept by every change of a live value:
it holds of all objects in what is left and in what is told. Along a path, objects are looked up in
and their members replaced, and what is told was a part of the value before. Being in step with the
rows is such a property, and being an association list is another one.

## Main definitions

- `Object.Kept`: a property that operations of objects keep.
- `Live.Leaves`: what a change tells and leaves has a property.
- `Live.apply`, `Live.mutate`: the changes, alone and at the end of a path.

## Main statements

- `Object.kept_fresh`, `Object.kept_listed`: the two properties.
- `Live.EveryObject.apply`: the changes of a value alone.
- `Live.EveryObject.modifyAt`, `Live.EveryObject.mutate`: a change at the end of any path.
-/

namespace JsonTree

/-! ## §1 Properties of objects -/

/-- A property that operations of objects keep. -/
structure Object.Kept (Q : Object Slice Live → Prop) : Prop where
  insert : ∀ {o : Object Slice Live} (key : Held Slice) (value : Live),
    Q o → Q (o.insert key value).2
  remove : ∀ {o : Object Slice Live} (key : Bytes), Q o → Q (o.remove key).2
  indexed : ∀ {o : Object Slice Live}, Q o → Q o.indexed
  modify : ∀ {o : Object Slice Live} (key : Bytes) (value : Live),
    Q o → Q (o.modify key fun _ => value)

/-- Indices are kept up, made anew or dropped. -/
theorem Object.kept_fresh : Kept Fresh where
  insert key value h := h.insert key value
  remove key h := h.remove key
  indexed h := h.indexed
  modify key value h := h.modify key fun _ => value

/-- Members are stored under keys that are new or are there already. -/
theorem Object.kept_listed : Kept Listed where
  insert key value h := (h.insert key value).2
  remove key h := (h.remove key).2
  indexed h := h.indexed
  modify key value h := (h.setValue key value).2

namespace Live

open Value (Step Mutator)

/-! ## §2 Changes of one container -/

/-- A change of a live value alone: what it tells, and what it leaves. -/
def apply (w : Live) : Mutator Slice Live → Except AccessError (Option Live × Live)
  | .insert key member => w.insert key member
  | .remove key => w.remove key
  | .push element => (none, ·) <$> w.push element
  | .pop => w.pop
  | .assign v => .ok (none, v)

/-- Change the part at the end of a path: what the change gives, unless the path does not resolve,
and the whole value after it. -/
def mutate (v : Live) (path : List Step) (m : Mutator Slice Live) :
    Option (Except AccessError (Option Live)) × Live :=
  v.modifyAt (·.apply m) path

/-- What a change tells, and what it leaves: all of it has a property. -/
structure Leaves (P : Live → Prop) (result : Option Live × Live) : Prop where
  told : ∀ v, result.1 = some v → P v
  left : P result.2

section

variable {Q : Object Slice Live → Prop} (hQ : Object.Kept Q) {v : Live}
  {result : Option Live × Live}
include hQ

theorem EveryObject.insert (hv : v.EveryObject Q) {member : Live} (hmember : member.EveryObject Q)
    {key : Held Slice} (h : v.insert key member = .ok result) : Leaves (EveryObject Q) result := by
  cases v with
  | object rows storage =>
    cases h
    obtain ⟨ho, hrows⟩ := hv.object
    obtain ⟨htold, hleft⟩ := Object.forall_insert (P := EveryObject Q) hrows key hmember
    exact ⟨htold, everyObject_ofObject_iff.mpr ⟨hQ.insert key member ho, hleft⟩⟩
  | null | bool | i64 | f64 | string | array => cases h

theorem EveryObject.remove (hv : v.EveryObject Q) {key : Bytes} (h : v.remove key = .ok result) :
    Leaves (EveryObject Q) result := by
  cases v with
  | object rows storage =>
    cases h
    obtain ⟨ho, hrows⟩ := hv.object
    obtain ⟨htold, hleft⟩ := Object.forall_remove (P := EveryObject Q) hrows key
    exact ⟨htold, everyObject_ofObject_iff.mpr ⟨hQ.remove key ho, hleft⟩⟩
  | null | bool | i64 | f64 | string | array => cases h

omit hQ in
theorem EveryObject.push (hv : v.EveryObject Q) {element : Live} (helement : element.EveryObject Q)
    {left : Live} (h : v.push element = .ok left) : left.EveryObject Q := by
  cases v with
  | array elements =>
    cases h
    rw [everyObject_array_iff] at hv ⊢
    exact List.forall_mem_append.mpr ⟨hv, List.forall_mem_singleton.mpr helement⟩
  | null | bool | i64 | f64 | string | object => cases h

omit hQ in
theorem EveryObject.pop (hv : v.EveryObject Q) (h : v.pop = .ok result) :
    Leaves (EveryObject Q) result := by
  cases v with
  | array elements =>
    cases h
    rw [everyObject_array_iff] at hv
    exact ⟨fun last hlast => hv last (List.mem_of_getLast? hlast),
      everyObject_array_iff.mpr fun w hw => hv w ((List.dropLast_sublist elements).subset hw)⟩
  | null | bool | i64 | f64 | string | object => cases h

theorem EveryObject.apply (hv : v.EveryObject Q) {m : Mutator Slice Live}
    (hm : ∀ w, m.value? = some w → w.EveryObject Q) (h : v.apply m = .ok result) :
    Leaves (EveryObject Q) result := by
  cases m with
  | insert key member => exact hv.insert hQ (hm member rfl) h
  | remove key => exact hv.remove hQ h
  | push element =>
    obtain ⟨left, hleft, rfl⟩ := map_eq_ok_iff.mp h
    exact ⟨nofun, hv.push (hm element rfl) hleft⟩
  | pop => exact hv.pop h
  | assign w =>
    cases h
    exact ⟨nofun, hm w rfl⟩

end

/-! ## §3 Paths -/

/-- A step leads to a part. -/
theorem part_of_step? {v part : Live} {step : Step} (h : v.step? step = some part) :
    Part part v := by
  cases step with
  | key bytes =>
    cases v with
    | object rows storage =>
      -- Whatever position the index gives, the row there is one of the object.
      obtain ⟨i, -, h⟩ := Option.bind_eq_some_iff.mp h
      obtain ⟨row, hrow, h⟩ := Option.bind_eq_some_iff.mp h
      cases h
      exact .member (List.mem_of_getElem? hrow) .whole
    | null | bool | i64 | f64 | string | array => cases h
  | index i =>
    cases v with
    | array elements => exact .element (List.mem_of_getElem? h) .whole
    | null | bool | i64 | f64 | string | object => cases h

/-- So does a path. -/
theorem part_of_at? {v part : Live} {path : List Step} (h : v.at? path = some part) :
    Part part v := by
  induction path generalizing v with
  | nil =>
    cases h
    exact .whole
  | cons step path ih =>
    obtain ⟨inner, hinner, h⟩ := Option.bind_eq_some_iff.mp h
    exact (ih h).trans (part_of_step? hinner)

section

variable {Q : Object Slice Live → Prop} (hQ : Object.Kept Q) {v : Live}
include hQ

/-- A lookup makes an index at most. -/
theorem EveryObject.asked (hv : v.EveryObject Q) (step : Step) : (v.asked step).EveryObject Q := by
  cases step with
  | key bytes =>
    cases v with
    | object rows storage =>
      obtain ⟨ho, hrows⟩ := hv.object
      exact everyObject_ofObject_iff.mpr ⟨hQ.indexed ho, Object.forall_indexed hrows⟩
    | null | bool | i64 | f64 | string | array => exact hv
  | index i => exact hv

/-- The container above a part keeps its keys. -/
theorem EveryObject.replaceStep (hv : v.EveryObject Q) {part : Live} (hpart : part.EveryObject Q)
    (step : Step) : (v.replaceStep part step).EveryObject Q := by
  cases step with
  | key bytes =>
    cases v with
    | object rows storage =>
      obtain ⟨ho, hrows⟩ := hv.object
      exact everyObject_ofObject_iff.mpr ⟨hQ.modify bytes part (hQ.indexed ho),
        Object.forall_modify (Object.forall_indexed hrows) bytes hpart⟩
    | null | bool | i64 | f64 | string | array => exact hv
  | index i =>
    cases v with
    | array elements =>
      rw [everyObject_array_iff] at hv
      refine everyObject_array_iff.mpr fun w hw => ?_
      rcases List.mem_or_eq_of_mem_set hw with hmem | rfl
      · exact hv w hmem
      · exact hpart
    | null | bool | i64 | f64 | string | object => exact hv

/-- A change at the end of any path, whether or not it can be made. What it gives has whatever
property the change alone sees to. -/
theorem EveryObject.modifyAt {ε α : Type} {change : Live → Except ε (α × Live)} {R : α → Prop}
    (hchange : ∀ w : Live, w.EveryObject Q → ∀ r, change w = .ok r → R r.1 ∧ r.2.EveryObject Q)
    (hv : v.EveryObject Q) (path : List Step) :
    (∀ answer, (v.modifyAt change path).1 = some (.ok answer) → R answer) ∧
      (v.modifyAt change path).2.EveryObject Q := by
  induction path generalizing v with
  | nil =>
    rw [Live.modifyAt]
    cases hresult : change v with
    | error e => exact ⟨nofun, hv⟩
    | ok result =>
      obtain ⟨hanswer, hleft⟩ := hchange v hv result hresult
      refine ⟨fun answer h => ?_, hleft⟩
      cases h
      exact hanswer
  | cons step path ih =>
    rw [Live.modifyAt]
    cases hpart : v.step? step with
    | none => exact ⟨nofun, hv.asked hQ step⟩
    | some part =>
      -- The part is changed first, and then the container above it is rebuilt around it.
      obtain ⟨hanswer, hleft⟩ := ih (hv.of_part (part_of_step? hpart))
      exact ⟨hanswer, hv.replaceStep hQ hleft step⟩

theorem EveryObject.mutate (hv : v.EveryObject Q) {m : Mutator Slice Live}
    (hm : ∀ w, m.value? = some w → w.EveryObject Q) (path : List Step) :
    (∀ told, (v.mutate path m).1 = some (.ok (some told)) → told.EveryObject Q) ∧
      (v.mutate path m).2.EveryObject Q := by
  have hleaves : ∀ w : Live, w.EveryObject Q → ∀ r, w.apply m = .ok r →
      (∀ told, r.1 = some told → told.EveryObject Q) ∧ r.2.EveryObject Q := fun w hw r hr =>
    ⟨(hw.apply hQ hm hr).told, (hw.apply hQ hm hr).left⟩
  have hchange := hv.modifyAt hQ
    (R := fun told : Option Live => ∀ w, told = some w → w.EveryObject Q) hleaves path
  exact ⟨fun told htold => hchange.1 _ htold told rfl, hchange.2⟩

theorem EveryObject.looked (hv : v.EveryObject Q) (path : List Step) :
    (v.looked path).EveryObject Q :=
  (hv.modifyAt hQ (R := fun _ => True) (fun w hw r hr => by
    cases hr
    exact ⟨trivial, hw⟩) path).2

end

end Live

end JsonTree
