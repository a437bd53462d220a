import JsonTree.Proofs.Value.Equality

/-!
# Properties that hold everywhere in a tree

A tree has parts: itself, and the parts of its elements and members. What should hold of all
strings, of all doubles or of the keys of all objects in a tree is asked of its parts, however deep
they lie.

## Main definitions

- `Value.Part`: the parts of a tree.
- `Value.Everywhere`: a property of all parts.
- `Value.DistinctKeys`, `Value.NaNFree`, `Value.EveryText`: no object repeats a key, no double is a
  NaN, all strings and keys have a property.

## Main statements

- `Value.tree_induction`: induction from the inside out.
- `Value.everywhere_array_iff`, `Value.everywhere_object_iff`: a property of all parts goes through
  a container.
- `Value.proper_iff`: proper values are those without repeated keys and without NaN.
-/

namespace JsonTree.Value

variable {P : Value → Prop} {elements : List Value} {rows : List (Text × Value)}

/-! ## §1 Parts -/

/-- Induction from the inside out: a container comes after what it holds. -/
@[induction_eliminator]
theorem tree_induction {motive : Value → Prop} (null : motive .null)
    (bool : ∀ b, motive (.bool b)) (i64 : ∀ n, motive (.i64 n)) (f64 : ∀ x, motive (.f64 x))
    (string : ∀ t, motive (.string t))
    (array : ∀ elements : List Value, (∀ v ∈ elements, motive v) → motive (.array elements))
    (object : ∀ rows : List (Text × Value), (∀ row ∈ rows, motive row.2) → motive (.object rows))
    (v : Value) : motive v :=
  @Value.rec motive (fun elements => ∀ v ∈ elements, motive v)
    (fun rows => ∀ row ∈ rows, motive row.2) (fun row => motive row.2)
    null bool i64 f64 string array object
    (fun _ h => nomatch h) (fun _ _ hv helements => List.forall_mem_cons.mpr ⟨hv, helements⟩)
    (fun _ h => nomatch h) (fun _ _ hrow hrows => List.forall_mem_cons.mpr ⟨hrow, hrows⟩)
    (fun _ _ hv => hv) v

/-- The parts of a tree: the tree itself, and the parts of its elements and members. -/
inductive Part : Value → Value → Prop where
  | whole {v : Value} : Part v v
  | element {p v : Value} {elements : List Value} :
      v ∈ elements → Part p v → Part p (.array elements)
  | member {p : Value} {row : Text × Value} {rows : List (Text × Value)} :
      row ∈ rows → Part p row.2 → Part p (.object rows)

/-- A property of all parts of a tree. -/
def Everywhere (P : Value → Prop) (v : Value) : Prop := ∀ p, Part p v → P p

/-- An atom has no part but itself. -/
theorem everywhere_iff_of_nesting {v : Value} (h : v.nesting = 0) : v.Everywhere P ↔ P v := by
  constructor
  · exact fun hv => hv v .whole
  · intro hv p hp
    cases hp with
    | whole => exact hv
    | element | member => cases h

theorem everywhere_array_iff :
    (array elements).Everywhere P ↔ P (.array elements) ∧ ∀ v ∈ elements, v.Everywhere P := by
  constructor
  · exact fun h => ⟨h _ .whole, fun v hv p hp => h p (.element hv hp)⟩
  · rintro ⟨hwhole, helements⟩ p hp
    cases hp with
    | whole => exact hwhole
    | element hv hp => exact helements _ hv p hp

theorem everywhere_object_iff :
    (object rows).Everywhere P ↔ P (.object rows) ∧ ∀ row ∈ rows, row.2.Everywhere P := by
  constructor
  · exact fun h => ⟨h _ .whole, fun row hrow p hp => h p (.member hrow hp)⟩
  · rintro ⟨hwhole, hrows⟩ p hp
    cases hp with
    | whole => exact hwhole
    | member hrow hp => exact hrows _ hrow p hp

/-- A bound on the nesting of elements is a bound for each of them. -/
theorem nestingOfElements_le_iff {n : Nat} :
    nestingOfElements elements ≤ n ↔ ∀ v ∈ elements, v.nesting ≤ n := by
  induction elements with
  | nil => simp [nestingOfElements]
  | cons v elements ih => rw [nestingOfElements, Nat.max_le, ih, List.forall_mem_cons]

theorem nestingOfRows_le_iff {n : Nat} :
    nestingOfRows rows ≤ n ↔ ∀ row ∈ rows, row.2.nesting ≤ n := by
  induction rows with
  | nil => simp [nestingOfRows]
  | cons row rows ih => rw [nestingOfRows, Nat.max_le, ih, List.forall_mem_cons]

/-! ## §2 Distinct keys -/

/-- No object in the tree repeats a key. -/
def DistinctKeys (v : Value) : Prop :=
  v.Everywhere fun p => ∀ rows, p = .object rows → (Rows.keys rows).Nodup

theorem distinctKeys_of_nesting {v : Value} (h : v.nesting = 0) : v.DistinctKeys := by
  refine (everywhere_iff_of_nesting h).mpr ?_
  rintro rows rfl
  cases h

@[simp]
theorem distinctKeys_i64 (n : Int64) : (i64 n).DistinctKeys := distinctKeys_of_nesting rfl

@[simp]
theorem distinctKeys_f64 (x : Binary64) : (f64 x).DistinctKeys := distinctKeys_of_nesting rfl

@[simp]
theorem distinctKeys_string (t : Text) : (string t).DistinctKeys := distinctKeys_of_nesting rfl

@[simp]
theorem distinctKeys_array_iff :
    (array elements).DistinctKeys ↔ ∀ v ∈ elements, v.DistinctKeys := by
  simp [DistinctKeys, everywhere_array_iff]

@[simp]
theorem distinctKeys_object_iff :
    (object rows).DistinctKeys ↔
      (Rows.keys rows).Nodup ∧ ∀ row ∈ rows, row.2.DistinctKeys := by
  simp [DistinctKeys, everywhere_object_iff]

/-! ## §3 No NaN -/

/-- No double in the tree is a NaN. -/
def NaNFree (v : Value) : Prop := v.Everywhere fun p => ∀ x, p = .f64 x → x.isNaN = false

theorem nanFree_of_nesting {v : Value} (h : v.nesting = 0) (hf64 : ∀ x, v ≠ .f64 x) :
    v.NaNFree :=
  (everywhere_iff_of_nesting h).mpr fun x hx => absurd hx (hf64 x)

@[simp]
theorem nanFree_null : null.NaNFree := nanFree_of_nesting rfl nofun

@[simp]
theorem nanFree_bool (b : Bool) : (bool b).NaNFree := nanFree_of_nesting rfl nofun

@[simp]
theorem nanFree_i64 (n : Int64) : (i64 n).NaNFree := nanFree_of_nesting rfl nofun

@[simp]
theorem nanFree_string (t : Text) : (string t).NaNFree := nanFree_of_nesting rfl nofun

@[simp]
theorem nanFree_f64_iff (x : Binary64) : (f64 x).NaNFree ↔ x.isNaN = false := by
  simp [NaNFree, everywhere_iff_of_nesting (v := f64 x) rfl]

@[simp]
theorem nanFree_array_iff : (array elements).NaNFree ↔ ∀ v ∈ elements, v.NaNFree := by
  simp [NaNFree, everywhere_array_iff]

@[simp]
theorem nanFree_object_iff : (object rows).NaNFree ↔ ∀ row ∈ rows, row.2.NaNFree := by
  simp [NaNFree, everywhere_object_iff]

theorem properElements_iff : ProperElements elements ↔ ∀ v ∈ elements, v.Proper := by
  induction elements with
  | nil => simp [ProperElements]
  | cons v elements ih => simp [ProperElements, ih]

theorem properRows_iff : ProperRows rows ↔ ∀ row ∈ rows, row.2.Proper := by
  induction rows with
  | nil => simp [ProperRows]
  | cons row rows ih => simp [ProperRows, ih]

/-- Proper values are those without repeated keys and without NaN. -/
theorem proper_iff (v : Value) : v.Proper ↔ v.DistinctKeys ∧ v.NaNFree := by
  induction v with
  | null | bool | i64 | string =>
    exact iff_of_true trivial ⟨distinctKeys_of_nesting rfl, nanFree_of_nesting rfl nofun⟩
  | f64 x =>
    rw [nanFree_f64_iff, and_iff_right (distinctKeys_of_nesting rfl)]
    rfl
  | array elements ih =>
    rw [distinctKeys_array_iff, nanFree_array_iff, ← forall₂_and]
    exact properElements_iff.trans (forall₂_congr ih)
  | object rows ih =>
    rw [distinctKeys_object_iff, nanFree_object_iff, and_assoc, ← forall₂_and]
    exact and_congr_right fun _ => properRows_iff.trans (forall₂_congr ih)

/-! ## §4 Texts -/

/-- All strings and all keys in the tree have a property. -/
def EveryText (P : Text → Prop) (v : Value) : Prop :=
  v.Everywhere fun p =>
    (∀ t, p = .string t → P t) ∧ ∀ rows, p = .object rows → ∀ row ∈ rows, P row.1

variable {P : Text → Prop}

theorem everyText_of_nesting {v : Value} (h : v.nesting = 0) (hstring : ∀ t, v ≠ .string t) :
    v.EveryText P := by
  refine (everywhere_iff_of_nesting h).mpr ⟨fun t ht => absurd ht (hstring t), ?_⟩
  rintro rows rfl
  cases h

theorem everyText_string_iff (t : Text) : (string t).EveryText P ↔ P t := by
  simp [EveryText, everywhere_iff_of_nesting (v := string t) rfl]

theorem everyText_array_iff :
    (array elements).EveryText P ↔ ∀ v ∈ elements, v.EveryText P := by
  simp [EveryText, everywhere_array_iff]

theorem everyText_object_iff :
    (object rows).EveryText P ↔ ∀ row ∈ rows, P row.1 ∧ row.2.EveryText P := by
  simp only [EveryText, everywhere_object_iff, forall₂_and]
  simp

/-! ## §5 Detaching -/

theorem detachedElements_eq_map (elements : List Value) :
    detachedElements elements = elements.map detached := by
  induction elements with
  | nil => rfl
  | cons v elements ih => rw [detachedElements, ih, List.map_cons]

theorem keys_detachedRows (rows : List (Text × Value)) :
    Rows.keys (detachedRows rows) = Rows.keys rows := by
  rw [detachedRows_eq_map, Rows.keys, List.map_map]
  rfl

theorem distinctKeys_detached (v : Value) : v.detached.DistinctKeys ↔ v.DistinctKeys := by
  induction v with
  | null | bool | i64 | f64 | string =>
    exact iff_of_true (distinctKeys_of_nesting rfl) (distinctKeys_of_nesting rfl)
  | array elements ih =>
    rw [detached, detachedElements_eq_map, distinctKeys_array_iff, distinctKeys_array_iff,
      List.forall_mem_map]
    exact forall₂_congr ih
  | object rows ih =>
    rw [detached, distinctKeys_object_iff, distinctKeys_object_iff, keys_detachedRows,
      detachedRows_eq_map, List.forall_mem_map]
    exact and_congr_right fun _ => forall₂_congr ih

theorem everyText_detached_iff (v : Value) :
    v.detached.EveryText P ↔ v.EveryText fun t => P t.detached := by
  induction v with
  | null | bool | i64 | f64 =>
    exact iff_of_true (everyText_of_nesting rfl nofun) (everyText_of_nesting rfl nofun)
  | string t => rw [detached, everyText_string_iff, everyText_string_iff]
  | array elements ih =>
    rw [detached, detachedElements_eq_map, everyText_array_iff, everyText_array_iff,
      List.forall_mem_map]
    exact forall₂_congr ih
  | object rows ih =>
    rw [detached, everyText_object_iff, everyText_object_iff, detachedRows_eq_map,
      List.forall_mem_map]
    exact forall₂_congr fun row hrow => and_congr_right fun _ => ih row hrow

mutual

theorem nesting_detached (v : Value) : v.detached.nesting = v.nesting := by
  cases v with
  | array elements => exact congrArg (· + 1) (nestingOfElements_detached elements)
  | object rows => exact congrArg (· + 1) (nestingOfRows_detached rows)
  | null | bool | i64 | f64 | string => rfl

theorem nestingOfElements_detached (elements : List Value) :
    nestingOfElements (detachedElements elements) = nestingOfElements elements := by
  cases elements with
  | nil => rfl
  | cons v elements =>
    rw [detachedElements, nestingOfElements, nestingOfElements, nesting_detached v,
      nestingOfElements_detached elements]

theorem nestingOfRows_detached (rows : List (Text × Value)) :
    nestingOfRows (detachedRows rows) = nestingOfRows rows := by
  cases rows with
  | nil => rfl
  | cons row rows =>
    rw [detachedRows, nestingOfRows, nestingOfRows, nesting_detached row.2,
      nestingOfRows_detached rows]

end

end JsonTree.Value
