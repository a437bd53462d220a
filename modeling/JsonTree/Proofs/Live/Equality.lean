import JsonTree.Proofs.Live.Contents
import JsonTree.Proofs.Value.Abstract

/-!
# The laws of equality

On values whose objects have distinct keys, equality is that of trees. Neither the size of an object
nor an index that is in step with its rows can be seen in it. An object whose index is stale may
differ from itself.

## Main statements

- `Value.equals_decides_tree`: the laws of equality on values with distinct keys.
- `Value.equals_staled`: an object with a stale index that differs from itself.
-/

namespace JsonTree

namespace Value

/-! ## §1 Objects -/

/-- Comparison of objects is comparison of values, as long as the index of the object that is
searched is not stale. -/
theorem object_equals {o p : Object Bytes Value} (ho : (object o.rows).DistinctKeys)
    (hp : (object p.rows).DistinctKeys) (hfresh : p.Fresh) :
    o.equals equals p = (object o.rows).equals (.object p.rows) := by
  obtain ⟨hkeys, hvalues⟩ := distinctKeys_object_iff.mp hp
  have hget : ∀ key, p.get? key = Rows.value? key p.rows := fun key =>
    Object.Listed.get? ⟨hkeys, hfresh⟩ key
  rw [Bool.eq_iff_iff, equals_object_iff hkeys]
  simp only [Object.equals, Bool.and_eq_true, beq_iff_eq, Object.size, List.all_eq_true, hget]
  refine and_congr_right fun _ => forall₂_congr fun row hrow => ?_
  cases hvalue : Rows.value? row.1.bytes p.rows with
  | none => simp
  | some y =>
    obtain ⟨other, hother, -, rfl⟩ := Rows.exists_mem_of_value? hvalue
    have hrow' := (distinctKeys_object_iff.mp ho).2 row hrow
    have hother' := hvalues other hother
    -- The two functions compare in opposite directions.
    simp [equals_comm hother' hrow']

end Value

namespace Live

open Value (object_equals)

/-- Live objects compare as their contents, unless some index that is searched is stale. -/
theorem object_equals {o p : Object Slice Live} (ho : (ofObject o).contents.DistinctKeys)
    (hp : (ofObject p).contents.DistinctKeys) (hofresh : (ofObject o).Fresh)
    (hpfresh : (ofObject p).Fresh) :
    o.equals equals p = (ofObject o).contents.equals (ofObject p).contents := by
  obtain ⟨hfresh, hvalues⟩ := everyObject_ofObject_iff.mp hpfresh
  obtain ⟨-, hrows⟩ := everyObject_ofObject_iff.mp hofresh
  rw [contents_ofObject] at ho hp
  have hbare := Value.object_equals (o := .ofRows (o.rows.map (Prod.map Held.text contents)))
    (p := .ofRows (p.rows.map (Prod.map Held.text contents))) ho hp (Object.fresh_of_none rfl)
  rw [contents_ofObject, contents_ofObject]
  refine Eq.trans ?_ hbare
  -- The rows meet the same ones, and the values that meet are compared by their contents.
  have hget := hfresh.followsRows.get?_relabelled Held.bytes_text (f := contents)
  rw [Bool.eq_iff_iff]
  simp only [Object.equals, Object.size, Bool.and_eq_true, beq_iff_eq, List.all_eq_true]
  refine and_congr (by simp only [Object.ofRows, List.length_map]) ?_
  rw [Object.ofRows, List.forall_mem_map]
  refine forall₂_congr fun row hrow => ?_
  rw [Prod.map_fst, Prod.map_snd, Held.bytes_text, hget]
  cases p.get? row.1.bytes with
  | none => rfl
  | some w => simp only [Option.map_some, equals_eq_contents w row.2 (hrows row hrow)]

end Live

namespace Value

/-! ## §2 The laws of equality -/

/-- On values with distinct keys, equality decides equality of trees where there is no NaN. It is
symmetric and transitive, blind to the order of members and to the owners of texts, tells integers
from doubles, and finds a value equal to itself exactly if it holds no NaN. Objects of any size
compare as the values that hold their rows, unless the index that is searched is stale, and live
values and objects compare as their contents, unless some index that is searched is stale. -/
theorem equals_decides_tree {u v w : Value} (hu : u.DistinctKeys) (hv : v.DistinctKeys)
    (hw : w.DistinctKeys) :
    (v.equals w = true ↔ v.NaNFree ∧ w.NaNFree ∧ v.tree = w.tree) ∧
    v.equals w = w.equals v ∧
    (u.equals v = true → v.equals w = true → u.equals w = true) ∧
    (∀ v' w', Rearranged v v' → Rearranged w w' → v'.equals w' = v.equals w) ∧
    (∀ n x, v = .i64 n → w = .f64 x → v.equals w = false) ∧
    (∀ o p : Object Bytes Value, v = .object o.rows → w = .object p.rows → p.Fresh →
      o.equals equals p = v.equals w) ∧
    (v.equals v = true ↔ v.NaNFree) ∧
    (∀ a b : Live, a.contents = v → b.contents = w → b.Fresh → a.equals b = v.equals w) ∧
    ∀ o p : Object Slice Live, (Live.ofObject o).contents = v → (Live.ofObject p).contents = w →
      (Live.ofObject o).Fresh → (Live.ofObject p).Fresh → o.equals Live.equals p = v.equals w := by
  refine ⟨equals_iff hv hw, equals_comm hv hw, fun huv hvw => ?_, fun v' w' hv' hw' => ?_,
    ?_, ?_, ?_, ?_, ?_⟩
  · obtain ⟨hufree, -, huv⟩ := (equals_iff hu hv).mp huv
    obtain ⟨-, hwfree, hvw⟩ := (equals_iff hv hw).mp hvw
    exact (equals_iff hu hw).mpr ⟨hufree, hwfree, huv.trans hvw⟩
  · rw [Bool.eq_iff_iff, equals_iff hv hw,
      equals_iff (hv'.distinctKeys_iff.mp hv) (hw'.distinctKeys_iff.mp hw), hv'.nanFree_iff,
      hw'.nanFree_iff, hv'.tree_eq hv, hw'.tree_eq hw]
  · rintro n x rfl rfl
    rfl
  · rintro o p rfl rfl hfresh
    exact object_equals hv hw hfresh
  · simp only [equals_iff hv hv, and_true, and_self]
  · rintro a b rfl rfl hfresh
    exact Live.equals_eq_contents a b hfresh
  · rintro o p ho hp hofresh hpfresh
    subst ho hp
    exact Live.object_equals hv hw hofresh hpfresh

/-- Three objects with one tree: members in two orders, keys of either owner, and both zeros. -/
theorem equals_decides_tree_reordered :
    let u : Value := .object [(.borrowed [97], .i64 1), (.borrowed [98], .f64 ⟨0x8000000000000000⟩)]
    let v : Value := .object [(.owned [98], .f64 ⟨0⟩), (.borrowed [97], .i64 1)]
    let w : Value := .object [(.owned [97], .i64 1), (.owned [98], .f64 ⟨0⟩)]
    u.DistinctKeys ∧ v.DistinctKeys ∧ w.DistinctKeys ∧ u.equals v = true ∧ v.equals w = true ∧
      v.tree = w.tree ∧ w.equals v = true ∧ u.equals w = true ∧ Rearranged v w ∧
      v.equals v = w.equals v ∧ v.NaNFree ∧
      (Object.ofRows [(.owned [98], .f64 ⟨0⟩), (.borrowed [97], .i64 1)] :
        Object Bytes Value).equals equals
        (.ofRows [(.owned [97], .i64 1), (.owned [98], .f64 ⟨0⟩)]) = true := by
  intro u v w
  have hu : u.DistinctKeys := distinctKeys_object_iff.mpr ⟨by decide, by simp⟩
  have hv : v.DistinctKeys := distinctKeys_object_iff.mpr ⟨by decide, by simp⟩
  have hw : w.DistinctKeys := distinctKeys_object_iff.mpr ⟨by decide, by simp⟩
  have huv : u.equals v = true := by decide +kernel
  have hvw : v.equals w = true := by decide +kernel
  have horder : Rearranged v w :=
    .trans (.order (.swap _ _ _)) (@Rearranged.member [] _ _ _ _ _ rfl (.refl _))
  obtain ⟨htree, hcomm, htrans, hsame, -, hobjects, -⟩ := equals_decides_tree hu hv hw
  obtain ⟨-, -, -, hsame', -⟩ := equals_decides_tree hu hv hv
  exact ⟨hu, hv, hw, huv, hvw, (htree.mp hvw).2.2, hcomm ▸ hvw, htrans huv hvw, horder,
    (hsame' w v horder (.refl v)).symm, (htree.mp hvw).1,
    (hobjects (.ofRows _) (.ofRows _) rfl rfl (Object.fresh_of_none rfl)).trans hvw⟩

/-- The object that is left when the key `a` is appended sixteen times and collapsed, appended once
more and collapsed beside the index, and fifteen other keys are inserted. -/
def staled : Object Slice Live :=
  let key (n : Nat) : Held Slice := .owned [UInt8.ofNat (0x61 + n)]
  let ops : List (Object.Op Slice Live) :=
    [.call (.reserve 17)] ++ List.replicate 16 (.append (key 0) (.i64 0)) ++
      [.call .finalize, .append (key 0) (.i64 0), .call .finalize] ++
      (List.range 15).map fun n => .call (.insert (key (n + 1)) (.i64 (Int64.ofNat (n + 1))))
  (Object.run .empty (ops.map fun op => (0, op))).2 0

theorem staled_contents :
    (Live.ofObject staled).contents.DistinctKeys ∧ (Live.ofObject staled).contents.NaNFree := by
  have hatoms : ∀ row ∈ Live.contentsOfRows staled.rows, row.2.nesting = 0 ∧ row.2.kind = .i64 := by
    decide +kernel
  have hdistinct : (Live.ofObject staled).contents.DistinctKeys :=
    distinctKeys_object_iff.mpr ⟨by decide +kernel, fun row hrow =>
      distinctKeys_of_nesting (hatoms row hrow).1⟩
  have hfree : (Live.ofObject staled).contents.NaNFree :=
    nanFree_object_iff.mpr fun row hrow => nanFree_of_nesting (hatoms row hrow).1 fun x hx => by
      simpa [hx, kind] using (hatoms row hrow).2
  exact ⟨hdistinct, hfree⟩

/-- An object whose index is stale differs from itself, although it repeats no key and holds no
NaN. -/
theorem equals_staled :
    (Live.ofObject staled).contents.DistinctKeys ∧ (Live.ofObject staled).contents.NaNFree ∧
      (Live.ofObject staled).equals (.ofObject staled) = false ∧
      staled.equals Live.equals staled = false :=
  ⟨staled_contents.1, staled_contents.2, by decide +kernel, by decide +kernel⟩

end Value

end JsonTree
