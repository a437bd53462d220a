import JsonTree.Live.Path
import JsonTree.Proofs.Object.Assoc
import JsonTree.Proofs.Value.Everywhere

/-!
# Properties that hold everywhere in a live value

What should hold of all objects in a live value, or of all of its texts, is asked of its parts. A
live value is fresh if no index in it is stale, however deep it lies, and listed if moreover no
object in it repeats a key; what was copied is always fresh.

## Main definitions

- `Live.Part`, `Live.Everywhere`: the parts of a live value, and a property of all of them.
- `Live.EveryObject`: a property of all objects in a live value.
- `Live.EveryText`: a property of all strings and keys in a live value.
- `Live.Fresh`: no object in a live value has a stale index.
- `Live.Listed`: all objects in a live value are association lists.

## Main statements

- `Live.live_induction`: induction from the inside out.
- `Live.listed_iff`: a live value is listed if it is fresh and its contents repeat no keys.
- `Live.contents_copied`, `Live.fresh_copied`: a copy says the same and is fresh.
-/

namespace JsonTree

theorem Held.bytes_text {σ : Type} [Readable σ] (t : Held σ) : t.text.bytes = t.bytes := by
  cases t <;> rfl

namespace Live

variable {P : Live → Prop} {elements : List Live} {o : Object Slice Live}

/-! ## §1 Contents as rows and elements -/

theorem contentsOfElements_eq_map (elements : List Live) :
    contentsOfElements elements = elements.map contents := by
  induction elements with
  | nil => rfl
  | cons v elements ih => rw [contentsOfElements, ih, List.map_cons]

theorem contentsOfRows_eq_map (rows : List (Held Slice × Live)) :
    contentsOfRows rows = rows.map (Prod.map Held.text contents) := by
  induction rows with
  | nil => rfl
  | cons row rows ih => rw [contentsOfRows, ih, List.map_cons, Prod.map]

theorem keys_contentsOfRows (rows : List (Held Slice × Live)) :
    Rows.keys (contentsOfRows rows) = Rows.keys rows := by
  rw [contentsOfRows_eq_map, Rows.keys, List.map_map]
  exact List.map_congr_left fun row _ => row.1.bytes_text

theorem copiedElements_eq_map (elements : List Live) :
    copiedElements elements = elements.map copied := by
  induction elements with
  | nil => rfl
  | cons v elements ih => rw [copiedElements, ih, List.map_cons]

theorem copiedRows_eq_map (rows : List (Held Slice × Live)) :
    copiedRows rows = rows.map (Prod.map id copied) := by
  induction rows with
  | nil => rfl
  | cons row rows ih => rw [copiedRows, ih, List.map_cons, Prod.map, id]

/-! ## §2 Parts -/

/-- Induction from the inside out: a container comes after what it holds. -/
@[induction_eliminator]
theorem live_induction {motive : Live → Prop} (null : motive .null)
    (bool : ∀ b, motive (.bool b)) (i64 : ∀ n, motive (.i64 n)) (f64 : ∀ x, motive (.f64 x))
    (string : ∀ t, motive (.string t))
    (array : ∀ elements : List Live, (∀ v ∈ elements, motive v) → motive (.array elements))
    (object : ∀ (rows : List (Held Slice × Live)) (storage : Storage),
      (∀ row ∈ rows, motive row.2) → motive (.object rows storage))
    (v : Live) : motive v :=
  @Live.rec motive (fun elements => ∀ v ∈ elements, motive v)
    (fun rows => ∀ row ∈ rows, motive row.2) (fun row => motive row.2)
    null bool i64 f64 string array object
    (fun _ h => nomatch h) (fun _ _ hv helements => List.forall_mem_cons.mpr ⟨hv, helements⟩)
    (fun _ h => nomatch h) (fun _ _ hrow hrows => List.forall_mem_cons.mpr ⟨hrow, hrows⟩)
    (fun _ _ hv => hv) v

/-- The parts of a live value: itself, and the parts of its elements and members. -/
inductive Part : Live → Live → Prop where
  | whole {v : Live} : Part v v
  | element {p v : Live} {elements : List Live} :
      v ∈ elements → Part p v → Part p (.array elements)
  | member {p : Live} {row : Held Slice × Live} {rows : List (Held Slice × Live)}
      {storage : Storage} : row ∈ rows → Part p row.2 → Part p (.object rows storage)

/-- A property of all parts of a live value. -/
def Everywhere (P : Live → Prop) (v : Live) : Prop := ∀ p, Part p v → P p

theorem Part.trans {p q v : Live} (hpq : Part p q) (hqv : Part q v) : Part p v := by
  induction hqv with
  | whole => exact hpq
  | element hmem _ ih => exact .element hmem ih
  | member hmem _ ih => exact .member hmem ih

/-- An atom has no part but itself. -/
theorem everywhere_iff_of_nesting {v : Live} (h : v.contents.nesting = 0) :
    v.Everywhere P ↔ P v := by
  constructor
  · exact fun hv => hv v .whole
  · intro hv p hp
    cases hp with
    | whole => exact hv
    | element | member => cases h

theorem everywhere_array_iff :
    (array elements).Everywhere P ↔ P (.array elements) ∧ ∀ v ∈ elements, v.Everywhere P := by
  constructor
  · exact fun h => ⟨h _ .whole, fun v hv p hp => h p (.element hv hp)⟩
  · rintro ⟨hwhole, helements⟩ p hp
    cases hp with
    | whole => exact hwhole
    | element hv hp => exact helements _ hv p hp

theorem everywhere_ofObject_iff :
    (ofObject o).Everywhere P ↔ P (ofObject o) ∧ ∀ row ∈ o.rows, row.2.Everywhere P := by
  constructor
  · exact fun h => ⟨h _ .whole, fun row hrow p hp => h p (.member hrow hp)⟩
  · rintro ⟨hwhole, hrows⟩ p hp
    cases hp with
    | whole => exact hwhole
    | member hrow hp => exact hrows _ hrow p hp

theorem Everywhere.of_part {p v : Live} (hv : v.Everywhere P) (hp : Part p v) : p.Everywhere P :=
  fun q hq => hv q (hq.trans hp)

/-! ## §3 Objects -/

/-- A property of all objects in a value. -/
def EveryObject (Q : Object Slice Live → Prop) (v : Live) : Prop :=
  v.Everywhere fun p => ∀ o, p.asObject = some o → Q o

section

variable {Q : Object Slice Live → Prop}

theorem everyObject_of_nesting {v : Live} (h : v.contents.nesting = 0) : v.EveryObject Q := by
  refine (everywhere_iff_of_nesting h).mpr fun o ho => ?_
  cases v with
  | object rows storage => cases h
  | null | bool | i64 | f64 | string | array => cases ho

theorem everyObject_array_iff :
    (array elements).EveryObject Q ↔ ∀ v ∈ elements, v.EveryObject Q := by
  simp [EveryObject, everywhere_array_iff, asObject]

theorem everyObject_ofObject_iff :
    (ofObject o).EveryObject Q ↔ Q o ∧ ∀ row ∈ o.rows, row.2.EveryObject Q := by
  rw [EveryObject, everywhere_ofObject_iff]
  refine and_congr_left fun _ => ⟨fun h => h o rfl, fun h p hp => ?_⟩
  obtain rfl : o = p := Option.some.inj hp
  exact h

/-- The object that a value is has the property, and so have all objects in its rows. -/
theorem EveryObject.object {rows : List (Held Slice × Live)} {storage : Storage}
    (h : (object rows storage).EveryObject Q) :
    Q ⟨storage, rows⟩ ∧
      ∀ row ∈ (⟨storage, rows⟩ : Object Slice Live).rows, row.2.EveryObject Q :=
  everyObject_ofObject_iff.mp h

theorem EveryObject.of_part {p v : Live} (hv : v.EveryObject Q) (hp : Part p v) :
    p.EveryObject Q :=
  Everywhere.of_part hv hp

end

/-- No object in the value has a stale index. -/
abbrev Fresh (v : Live) : Prop := v.EveryObject Object.Fresh

/-- Every object in the value is an association list. -/
abbrev Listed (v : Live) : Prop := v.EveryObject Object.Listed

theorem listed_iff (v : Live) : v.Listed ↔ v.Fresh ∧ v.contents.DistinctKeys := by
  induction v with
  | null | bool | i64 | f64 | string =>
    exact iff_of_true (everyObject_of_nesting rfl)
      ⟨everyObject_of_nesting rfl, Value.distinctKeys_of_nesting rfl⟩
  | array elements ih =>
    rw [Listed, Fresh, everyObject_array_iff, everyObject_array_iff, contents,
      contentsOfElements_eq_map, Value.distinctKeys_array_iff, List.forall_mem_map, ← forall₂_and]
    exact forall₂_congr ih
  | object rows storage ih =>
    change (ofObject ⟨storage, rows⟩).Listed ↔ (ofObject ⟨storage, rows⟩).Fresh ∧ _
    -- Index and keys are told apart for this object first, and then for those in its rows.
    rw [Listed, Fresh, everyObject_ofObject_iff, everyObject_ofObject_iff, contents,
      Value.distinctKeys_object_iff, keys_contentsOfRows, contentsOfRows_eq_map,
      List.forall_mem_map, and_and_and_comm, ← forall₂_and]
    exact and_congr ⟨fun h => ⟨h.fresh, h.distinct⟩, fun h => ⟨h.2, h.1⟩⟩ (forall₂_congr ih)

theorem EveryObject.fresh {v : Live} (h : v.Listed) : v.Fresh := ((listed_iff v).mp h).1

theorem EveryObject.distinctKeys {v : Live} (h : v.Listed) : v.contents.DistinctKeys :=
  ((listed_iff v).mp h).2

/-! ## §4 Texts -/

/-- All strings and all keys in the value have a property. -/
def EveryText (T : Held Slice → Prop) (v : Live) : Prop :=
  v.Everywhere fun p =>
    (∀ t, p = .string t → T t) ∧ ∀ rows storage, p = .object rows storage → ∀ row ∈ rows, T row.1

section

variable {T : Held Slice → Prop}

theorem everyText_of_nesting {v : Live} (h : v.contents.nesting = 0)
    (hstring : ∀ t, v ≠ .string t) : v.EveryText T := by
  refine (everywhere_iff_of_nesting h).mpr ⟨fun t ht => absurd ht (hstring t), ?_⟩
  rintro rows storage rfl
  cases h

theorem everyText_string_iff (t : Held Slice) : (string t).EveryText T ↔ T t := by
  simp [EveryText, everywhere_iff_of_nesting (v := string t) rfl]

theorem everyText_array_iff : (array elements).EveryText T ↔ ∀ v ∈ elements, v.EveryText T := by
  simp [EveryText, everywhere_array_iff]

theorem everyText_ofObject_iff :
    (ofObject o).EveryText T ↔ ∀ row ∈ o.rows, T row.1 ∧ row.2.EveryText T := by
  simp only [EveryText, everywhere_ofObject_iff, forall₂_and]
  simp [ofObject]

theorem EveryText.mono {T' : Held Slice → Prop} (h : ∀ t, T t → T' t) {v : Live}
    (hv : v.EveryText T) : v.EveryText T' :=
  fun p hp => ⟨fun t ht => h t ((hv p hp).1 t ht),
    fun rows storage hrows row hrow => h row.1 ((hv p hp).2 rows storage hrows row hrow)⟩

end

/-! ## §5 What live values say -/

section

variable {T : Held Slice → Prop}

/-- A live value says what is given, its objects are association lists, and its texts have a
property. -/
structure Spells (T : Held Slice → Prop) (v : Live) (x : Value) : Prop where
  contents : v.contents = x
  listed : v.Listed
  texts : v.EveryText T

/-- A live row says what is given. -/
structure SpellsRow (T : Held Slice → Prop) (row : Held Slice × Live) (given : Text × Value) :
    Prop where
  key : row.1.text = given.1
  text : T row.1
  value : Spells T row.2 given.2

/-- An atom that is no text. -/
theorem spells_of_nesting {v : Live} (h : v.contents.nesting = 0) (hstring : ∀ t, v ≠ .string t) :
    Spells T v v.contents :=
  ⟨rfl, everyObject_of_nesting h, everyText_of_nesting h hstring⟩

theorem spells_ofNumber (n : Number) : Spells T (.ofNumber n) (.ofNumber n) := by
  cases n <;> exact spells_of_nesting rfl nofun

theorem spells_array {vs : List Live} {xs : List Value} (h : List.Forall₂ (Spells T) vs xs) :
    Spells T (.array vs) (.array xs) := by
  have helements : vs.map contents = xs ∧ (∀ v ∈ vs, v.Listed) ∧ ∀ v ∈ vs, v.EveryText T := by
    induction h with
    | nil => exact ⟨rfl, nofun, nofun⟩
    | cons hv _ ih =>
      obtain ⟨hcontents, hlisted, htexts⟩ := ih
      exact ⟨by rw [List.map_cons, hv.contents, hcontents],
        List.forall_mem_cons.mpr ⟨hv.listed, hlisted⟩, List.forall_mem_cons.mpr ⟨hv.texts, htexts⟩⟩
  obtain ⟨hcontents, hlisted, htexts⟩ := helements
  refine ⟨?_, everyObject_array_iff.mpr hlisted, everyText_array_iff.mpr htexts⟩
  rw [contents, contentsOfElements_eq_map, hcontents]

theorem spells_empty : Spells T (.ofObject .empty) (.object []) where
  contents := rfl
  listed := everyObject_ofObject_iff.mpr ⟨Object.listed_empty, nofun⟩
  texts := everyText_ofObject_iff.mpr nofun

end

/-! ## §6 Copies -/

theorem contents_copied (v : Live) : v.copied.contents = v.contents := by
  induction v with
  | null | bool | i64 | f64 | string => rfl
  | array elements ih =>
    rw [copied, contents, contents, contentsOfElements_eq_map, contentsOfElements_eq_map,
      copiedElements_eq_map, List.map_map]
    exact congrArg Value.array (List.map_congr_left ih)
  | object rows storage ih =>
    rw [copied, ofObject, contents, contents, contentsOfRows_eq_map, contentsOfRows_eq_map,
      Object.ofRows, copiedRows_eq_map, List.map_map]
    exact congrArg Value.object (List.map_congr_left fun row hrow => Prod.ext rfl (ih row hrow))

/-- A copy has no index anywhere. -/
theorem fresh_copied (v : Live) : v.copied.Fresh := by
  induction v with
  | null | bool | i64 | f64 | string => exact everyObject_of_nesting rfl
  | array elements ih =>
    rw [copied, copiedElements_eq_map, Fresh, everyObject_array_iff, List.forall_mem_map]
    exact ih
  | object rows storage ih =>
    rw [copied, Fresh, everyObject_ofObject_iff, Object.ofRows, copiedRows_eq_map,
      List.forall_mem_map]
    exact ⟨Object.fresh_of_none rfl, ih⟩

/-- A copy borrows what was borrowed. -/
theorem EveryText.copied {T : Held Slice → Prop} {v : Live} (hv : v.EveryText T) :
    v.copied.EveryText T := by
  induction v with
  | null | bool | i64 | f64 | string => exact hv
  | array elements ih =>
    rw [everyText_array_iff] at hv
    rw [Live.copied, copiedElements_eq_map, everyText_array_iff, List.forall_mem_map]
    exact fun v hmem => ih v hmem (hv v hmem)
  | object rows storage ih =>
    change (ofObject ⟨storage, rows⟩).EveryText T at hv
    rw [everyText_ofObject_iff] at hv
    rw [Live.copied, everyText_ofObject_iff, Object.ofRows, copiedRows_eq_map, List.forall_mem_map]
    exact fun row hrow => ⟨(hv row hrow).1, ih row hrow (hv row hrow).2⟩

end Live

end JsonTree
