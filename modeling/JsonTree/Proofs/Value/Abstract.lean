import Mathlib.Data.List.Perm.Subperm
import JsonTree.Proofs.Value.Everywhere

/-!
# Equality of values as equality of trees

Behind a value stands a tree that knows neither the owners of texts nor the order of members: an
object in it is a finite map. On values whose objects have distinct keys, equality of values decides
equality of these trees, except that a NaN equals nothing.

## Main definitions

- `Tree`, `Value.tree`: trees with finite maps, and the tree behind a value.
- `Value.Rearranged`: a change of storage order, and of the owners of texts, at any depth.

## Main statements

- `Value.equals_iff`: equality decides equality of trees.
- `Value.Rearranged.tree_eq`: a rearranged value has the same tree.
-/

namespace JsonTree

/-! ## §1 Trees -/

/-- The double that stands for a number: of the two zeros, the positive one. -/
def Binary64.canonical (x : Binary64) : Binary64 := if x.magnitude = 0 then ⟨0⟩ else x

theorem Binary64.equals_iff (x y : Binary64) :
    x.equals y = true ↔ x.isNaN = false ∧ y.isNaN = false ∧ x.canonical = y.canonical := by
  have hzero : (⟨0⟩ : Binary64).magnitude = 0 := rfl
  have hbits : x.bits = y.bits ↔ x = y := by cases x; cases y; simp
  -- Only the zeros are merged, and no other double has their magnitude.
  have hcanonical : x.canonical = y.canonical ↔ x = y ∨ x.magnitude = 0 ∧ y.magnitude = 0 := by
    unfold canonical
    grind
  simp only [equals, Bool.and_eq_true, Bool.or_eq_true, Bool.not_eq_true', beq_iff_eq, hbits,
    hcanonical, and_assoc]

/-- A tree in which an object is a finite map: what it holds under each key. -/
inductive Tree where
  | null
  | bool (b : Bool)
  | i64 (n : Int64)
  | f64 (x : Binary64)
  | string (bytes : Bytes)
  | array (elements : List Tree)
  | object (members : Bytes → Option Tree)

namespace Value

mutual

/-- The tree behind a value. -/
def tree : Value → Tree
  | .null => .null
  | .bool b => .bool b
  | .i64 n => .i64 n
  | .f64 x => .f64 x.canonical
  | .string t => .string t.bytes
  | .array elements => .array (treesOf elements)
  | .object rows => .object (treeUnder rows)

/-- The trees behind some elements. -/
def treesOf : List Value → List Tree
  | [] => []
  | v :: elements => tree v :: treesOf elements

/-- The tree that some rows hold under a key. -/
def treeUnder : List (Text × Value) → Bytes → Option Tree
  | [], _ => none
  | (key, v) :: rows, wanted => if key.bytes = wanted then some (tree v) else treeUnder rows wanted

end

theorem treesOf_eq_map (elements : List Value) : treesOf elements = elements.map tree := by
  induction elements with
  | nil => rfl
  | cons v elements ih => rw [treesOf, ih, List.map_cons]

theorem treeUnder_eq_value? (rows : List (Text × Value)) (key : Bytes) :
    treeUnder rows key = (Rows.value? key rows).map tree := by
  induction rows with
  | nil => rfl
  | cons row rows ih =>
    rw [treeUnder, Rows.value?, ih]
    split <;> rfl

end Value

/-! ## §2 Rows with distinct keys -/

namespace Rows

variable {σ α : Type} [Readable σ] {rows others : Rows σ α}

/-- As many rows as others, each of which is found among them: the keys are the same. -/
theorem mem_keys_iff_of_found (hdistinct : rows.keys.Nodup) (hlength : rows.length = others.length)
    (hfound : ∀ row ∈ rows, ∃ value, value? row.1.bytes others = some value) (key : Bytes) :
    key ∈ rows.keys ↔ key ∈ others.keys := by
  have hsubset : rows.keys ⊆ others.keys := by
    intro key hkey
    obtain ⟨row, hrow, rfl⟩ := List.mem_map.mp hkey
    obtain ⟨value, hvalue⟩ := hfound row hrow
    obtain ⟨other, hother, heq, -⟩ := exists_mem_of_value? hvalue
    exact heq ▸ List.mem_map_of_mem hother
  have hle : others.keys.length ≤ rows.keys.length := by
    simp only [keys, List.length_map, hlength, Nat.le_refl]
  exact ((hdistinct.subperm hsubset).perm_of_length_le hle).mem_iff

theorem length_eq_of_mem_keys_iff (hdistinct : rows.keys.Nodup) (hothers : others.keys.Nodup)
    (h : ∀ key, key ∈ rows.keys ↔ key ∈ others.keys) : rows.length = others.length := by
  have hperm := ((List.perm_ext_iff_of_nodup hdistinct hothers).mpr h).length_eq
  simpa only [keys, List.length_map] using hperm

/-- Distinct keys lead to their rows in any order. -/
theorem value?_perm (hdistinct : rows.keys.Nodup) (hperm : rows.Perm others) (key : Bytes) :
    value? key rows = value? key others := by
  have hothers : others.keys.Nodup := (hperm.map _).nodup_iff.mp hdistinct
  cases hvalue : value? key rows with
  | some value =>
    obtain ⟨row, hmem, rfl, rfl⟩ := exists_mem_of_value? hvalue
    exact (value?_of_mem hothers (hperm.mem_iff.mp hmem)).symm
  | none =>
    rw [value?_eq_none_iff] at hvalue
    exact ((value?_eq_none_iff others key).mpr fun hmem =>
      hvalue ((hperm.map _).mem_iff.mpr hmem)).symm

end Rows

namespace Value

/-! ## §3 Equality decides equality of trees -/

/-- Two values are equal exactly if their trees are and neither holds a NaN. -/
def TreesDecide (v w : Value) : Prop :=
  v.equals w = true ↔ v.NaNFree ∧ w.NaNFree ∧ v.tree = w.tree

theorem treesDecide_array {xs ys : List Value} (h : ∀ x ∈ xs, ∀ y ∈ ys, TreesDecide x y) :
    TreesDecide (.array xs) (.array ys) := by
  rw [TreesDecide, equals, tree, tree, nanFree_array_iff, nanFree_array_iff, Tree.array.injEq]
  induction xs generalizing ys with
  | nil => cases ys <;> simp [equalsElements, treesOf]
  | cons x xs ih =>
    cases ys with
    | nil => simp [equalsElements, treesOf]
    | cons y ys =>
      have hxy : x.equals y = true ↔ _ := h x List.mem_cons_self y List.mem_cons_self
      have hothers := ih fun x' hx' y' hy' =>
        h x' (List.mem_cons_of_mem _ hx') y' (List.mem_cons_of_mem _ hy')
      rw [equalsElements, Bool.and_eq_true, hothers, List.forall_mem_cons,
        List.forall_mem_cons, treesOf, treesOf, List.cons_eq_cons]
      tauto

theorem equalsRows_iff (xs : List (Text × Value)) (o : Object Bytes Value) :
    equalsRows xs o = true ↔
      ∀ row ∈ xs, ∃ y, o.get? row.1.bytes = some y ∧ row.2.equals y = true := by
  induction xs with
  | nil => simp [equalsRows]
  | cons row xs ih =>
    rw [equalsRows, Bool.and_eq_true, ih, List.forall_mem_cons]
    refine and_congr_left fun _ => ?_
    cases o.get? row.1.bytes <;> simp

/-- An object equals another one with distinct keys if it has as many rows and each of its rows
meets an equal value there. -/
theorem equals_object_iff {xs ys : List (Text × Value)} (hys : (Rows.keys ys).Nodup) :
    (object xs).equals (.object ys) = true ↔ xs.length = ys.length ∧
      ∀ row ∈ xs, ∃ y, Rows.value? row.1.bytes ys = some y ∧ row.2.equals y = true := by
  have hget : ∀ key, (Object.ofRows ys).get? key = Rows.value? key ys :=
    (Object.listed_of_none (o := .ofRows ys) hys rfl).get?
  simp only [equals, Bool.and_eq_true, beq_iff_eq, equalsRows_iff, hget]

/-- The trees that two objects hold under their keys are the same exactly if the keys are, and each
row of the first meets the same tree in the second. -/
theorem treeUnder_eq_iff {xs ys : List (Text × Value)} (hxs : (Rows.keys xs).Nodup)
    (hys : (Rows.keys ys).Nodup) :
    treeUnder xs = treeUnder ys ↔ xs.length = ys.length ∧
      ∀ row ∈ xs, ∃ y, Rows.value? row.1.bytes ys = some y ∧ row.2.tree = y.tree := by
  constructor
  · intro h
    have hunder : ∀ key, (Rows.value? key xs).map tree = (Rows.value? key ys).map tree := by
      intro key
      rw [← treeUnder_eq_value?, ← treeUnder_eq_value?, h]
    refine ⟨Rows.length_eq_of_mem_keys_iff hxs hys fun key => ?_, fun row hrow => ?_⟩
    · rw [← not_iff_not, ← Rows.value?_eq_none_iff, ← Rows.value?_eq_none_iff,
        ← Option.map_eq_none_iff (f := tree), hunder key, Option.map_eq_none_iff]
    · have hkey := hunder row.1.bytes
      rw [Rows.value?_of_mem hxs hrow] at hkey
      obtain ⟨y, hy, htree⟩ := Option.map_eq_some_iff.mp hkey.symm
      exact ⟨y, hy, htree.symm⟩
  · rintro ⟨hlength, hrows⟩
    have hkeys := Rows.mem_keys_iff_of_found hxs hlength fun row hrow =>
      (hrows row hrow).imp fun _ => And.left
    funext key
    rw [treeUnder_eq_value?, treeUnder_eq_value?]
    cases hvalue : Rows.value? key xs with
    | some x =>
      obtain ⟨row, hrow, rfl, rfl⟩ := Rows.exists_mem_of_value? hvalue
      obtain ⟨y, hy, htree⟩ := hrows row hrow
      rw [hy, Option.map_some, Option.map_some, htree]
    | none =>
      -- The second object has no keys beyond those of the first.
      rw [Rows.value?_eq_none_iff, hkeys, ← Rows.value?_eq_none_iff] at hvalue
      rw [hvalue]

theorem treesDecide_object {xs ys : List (Text × Value)} (hxs : (Rows.keys xs).Nodup)
    (hys : (Rows.keys ys).Nodup) (h : ∀ x ∈ xs, ∀ y ∈ ys, TreesDecide x.2 y.2) :
    TreesDecide (.object xs) (.object ys) := by
  have hfound : ∀ row ∈ xs, ∀ y, Rows.value? row.1.bytes ys = some y → TreesDecide row.2 y := by
    intro row hrow y hy
    obtain ⟨other, hother, -, rfl⟩ := Rows.exists_mem_of_value? hy
    exact h row hrow other hother
  rw [TreesDecide, equals_object_iff hys, tree, tree, nanFree_object_iff, nanFree_object_iff,
    Tree.object.injEq, treeUnder_eq_iff hxs hys]
  constructor
  -- The values that meet are equal, and so the trees they have are too.
  · rintro ⟨hlength, hrows⟩
    have hdecided : ∀ row ∈ xs, ∃ y, Rows.value? row.1.bytes ys = some y ∧
        row.2.NaNFree ∧ y.NaNFree ∧ row.2.tree = y.tree := fun row hrow =>
      (hrows row hrow).imp fun y hy => ⟨hy.1, (hfound row hrow y hy.1).mp hy.2⟩
    have hkeys := Rows.mem_keys_iff_of_found hxs hlength fun row hrow =>
      (hrows row hrow).imp fun _ => And.left
    refine ⟨fun row hrow => ?_, fun other hother => ?_, hlength, fun row hrow => ?_⟩
    · obtain ⟨y, -, hfree, -⟩ := hdecided row hrow
      exact hfree
    -- Each row of the second object is met by the row of the first that has its key.
    · obtain ⟨row, hrow, hkey⟩ := List.mem_map.mp ((hkeys _).mpr (List.mem_map_of_mem hother))
      obtain ⟨y, hy, -, hfree, -⟩ := hdecided row hrow
      rw [hkey, Rows.value?_of_mem hys hother] at hy
      cases hy
      exact hfree
    · obtain ⟨y, hy, -, -, htree⟩ := hdecided row hrow
      exact ⟨y, hy, htree⟩
  · rintro ⟨hfreexs, hfreeys, hlength, hrows⟩
    refine ⟨hlength, fun row hrow => ?_⟩
    obtain ⟨y, hy, htree⟩ := hrows row hrow
    obtain ⟨other, hother, -, rfl⟩ := Rows.exists_mem_of_value? hy
    exact ⟨other.2, hy, (hfound row hrow _ hy).mpr ⟨hfreexs row hrow, hfreeys other hother, htree⟩⟩

/-- On values with distinct keys, equality decides equality of trees where there is no NaN. -/
theorem equals_iff {v w : Value} (hv : v.DistinctKeys) (hw : w.DistinctKeys) :
    v.equals w = true ↔ v.NaNFree ∧ w.NaNFree ∧ v.tree = w.tree := by
  induction v generalizing w with
  -- Atoms of different kinds differ on both sides, and so do atoms and containers.
  | null => cases w <;> simp [equals, tree]
  | bool b => cases w <;> simp [equals, tree]
  | i64 n => cases w <;> simp [equals, tree]
  | string t => cases w <;> simp [equals, tree]
  | f64 x =>
    cases w with
    | f64 y =>
      simp only [equals, tree, nanFree_f64_iff, Tree.f64.injEq]
      exact Binary64.equals_iff x y
    | null | bool | i64 | string | array | object => simp [equals, tree]
  | array xs ih =>
    cases w with
    | array ys =>
      rw [distinctKeys_array_iff] at hv hw
      exact treesDecide_array fun x hx y hy => ih x hx (hv x hx) (hw y hy)
    | null | bool | i64 | f64 | string | object => simp [equals, tree]
  | object xs ih =>
    cases w with
    | object ys =>
      rw [distinctKeys_object_iff] at hv hw
      exact treesDecide_object hv.1 hw.1 fun x hx y hy => ih x hx (hv.2 x hx) (hw.2 y hy)
    | null | bool | i64 | f64 | string | array => simp [equals, tree]

theorem equals_comm {v w : Value} (hv : v.DistinctKeys) (hw : w.DistinctKeys) :
    v.equals w = w.equals v := by
  rw [Bool.eq_iff_iff, equals_iff hv hw, equals_iff hw hv, and_left_comm, eq_comm]

/-! ## §4 Rearranged values -/

/-- The same value with members in another order, and with texts owned or borrowed differently, at
any depth. -/
inductive Rearranged : Value → Value → Prop where
  | refl (v : Value) : Rearranged v v
  | trans {u v w : Value} : Rearranged u v → Rearranged v w → Rearranged u w
  /-- A string may change its owner. -/
  | string {s t : Text} : s.bytes = t.bytes → Rearranged (.string s) (.string t)
  | element {xs ys : List Value} {v w : Value} :
      Rearranged v w → Rearranged (.array (xs ++ v :: ys)) (.array (xs ++ w :: ys))
  /-- So may a key. -/
  | member {xs ys : List (Text × Value)} {key key' : Text} {v w : Value} :
      key.bytes = key'.bytes → Rearranged v w →
        Rearranged (.object (xs ++ (key, v) :: ys)) (.object (xs ++ (key', w) :: ys))
  /-- Members may come in any order. -/
  | order {xs ys : List (Text × Value)} : xs.Perm ys → Rearranged (.object xs) (.object ys)

/-- A row is seen in the tree by the bytes of its key and by the tree of its value. -/
theorem treeUnder_congr (xs ys : List (Text × Value)) {key key' : Text} {v w : Value}
    (hkey : key.bytes = key'.bytes) (htree : v.tree = w.tree) :
    treeUnder (xs ++ (key, v) :: ys) = treeUnder (xs ++ (key', w) :: ys) := by
  funext wanted
  induction xs with
  | nil => rw [List.nil_append, List.nil_append, treeUnder, treeUnder, hkey, htree]
  | cons row xs ih => rw [List.cons_append, List.cons_append, treeUnder, treeUnder, ih]

namespace Rearranged

variable {v w : Value}

theorem distinctKeys_iff (h : Rearranged v w) : v.DistinctKeys ↔ w.DistinctKeys := by
  induction h with
  | refl => rfl
  | trans _ _ ih ih' => exact ih.trans ih'
  | string => exact iff_of_true (distinctKeys_of_nesting rfl) (distinctKeys_of_nesting rfl)
  | element _ ih =>
    simp only [distinctKeys_array_iff, List.forall_mem_append, List.forall_mem_cons, ih]
  | member hkey _ ih =>
    simp only [distinctKeys_object_iff, Rows.keys_append, Rows.keys_cons, hkey,
      List.forall_mem_append, List.forall_mem_cons, ih]
  | order hperm =>
    rw [distinctKeys_object_iff, distinctKeys_object_iff]
    exact and_congr (hperm.map _).nodup_iff (forall_congr' fun row => by rw [hperm.mem_iff])

theorem nanFree_iff (h : Rearranged v w) : v.NaNFree ↔ w.NaNFree := by
  induction h with
  | refl => rfl
  | trans _ _ ih ih' => exact ih.trans ih'
  | string => exact iff_of_true (nanFree_of_nesting rfl nofun) (nanFree_of_nesting rfl nofun)
  | element _ ih =>
    simp only [nanFree_array_iff, List.forall_mem_append, List.forall_mem_cons, ih]
  | member _ _ ih =>
    simp only [nanFree_object_iff, List.forall_mem_append, List.forall_mem_cons, ih]
  | order hperm =>
    rw [nanFree_object_iff, nanFree_object_iff]
    exact forall_congr' fun row => by rw [hperm.mem_iff]

/-- Neither the order of members nor the owner of a text is seen in the tree. -/
theorem tree_eq (h : Rearranged v w) (hv : v.DistinctKeys) : v.tree = w.tree := by
  induction h with
  | refl => rfl
  -- Between the two steps keys are distinct, too.
  | trans huv _ ih ih' => exact (ih hv).trans (ih' (huv.distinctKeys_iff.mp hv))
  | string hbytes => rw [tree, tree, hbytes]
  | element _ ih =>
    simp only [distinctKeys_array_iff, List.forall_mem_append, List.forall_mem_cons] at hv
    simp only [tree, treesOf_eq_map, List.map_append, List.map_cons, ih hv.2.1]
  | @member xs ys _ _ _ _ hkey _ ih =>
    simp only [distinctKeys_object_iff, List.forall_mem_append, List.forall_mem_cons] at hv
    rw [tree, tree, treeUnder_congr xs ys hkey (ih hv.2.2.1)]
  -- Where keys are distinct, the order decides nothing about what is found under a key.
  | order hperm =>
    rw [distinctKeys_object_iff] at hv
    rw [tree, tree]
    congr 1
    funext key
    rw [treeUnder_eq_value?, treeUnder_eq_value?, Rows.value?_perm hv.1 hperm]

end Rearranged

end Value

end JsonTree
