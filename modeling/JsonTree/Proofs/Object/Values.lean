import JsonTree.Proofs.Object.Run

/-!
# Values in objects

Operations move values and never look at them. What holds of all values in an object, and of the one
that is stored, holds of all values afterwards and of the one that is told. And where the rows of an
object are relabelled, with keys held in another way and other values in their place, an object that
follows its rows is asked and changed in the same way before and after.

## Main statements

- `Object.forall_insert`, `Object.forall_remove`, `Object.forall_modify`: what holds of all values
  still does.
- `Object.FollowsRows.get?_relabelled`, `Object.FollowsRows.insert_relabelled`,
  `Object.FollowsRows.remove_relabelled`, `Object.FollowsRows.modify_relabelled`: the object of the
  relabelled rows does what the object does.
-/

namespace JsonTree

variable {σ τ α β : Type} [Readable σ] [Readable τ]

/-! ## §1 What holds of all values -/

namespace Object

variable {P : α → Prop} {o : Object σ α}

omit [Readable σ] in
theorem of_value?_eq_some (h : ∀ row ∈ o.rows, P row.2) {i : Nat} {value : α}
    (hvalue : (o.rows[i]?).map (·.2) = some value) : P value := by
  obtain ⟨row, hrow, rfl⟩ := Option.map_eq_some_iff.mp hvalue
  exact h row (List.mem_of_getElem? hrow)

theorem of_get?_eq_some (h : ∀ row ∈ o.rows, P row.2) {key : Bytes} {value : α}
    (hvalue : o.get? key = some value) : P value := by
  obtain ⟨i, -, hvalue⟩ := Option.bind_eq_some_iff.mp hvalue
  obtain ⟨row, hrow, hvalue⟩ := Option.bind_eq_some_iff.mp hvalue
  cases hvalue
  exact h row (List.mem_of_getElem? hrow)

omit [Readable σ] in
/-- One row gets another value under the key that it has. -/
theorem forall_mem_modifyAt {P : Held σ × α → Prop} (h : ∀ row ∈ o.rows, P row) (i : Nat)
    {value : α} (hchanged : ∀ row ∈ o.rows, P (row.1, value)) :
    ∀ row ∈ (o.modifyAt i fun _ => value).rows, P row := by
  intro row hrow
  rw [modifyAt_rows] at hrow
  obtain ⟨j, hj⟩ := List.mem_iff_getElem?.mp hrow
  rw [List.getElem?_modify] at hj
  obtain ⟨old, hold, rfl⟩ := Option.map_eq_some_iff.mp hj
  have hmem := List.mem_of_getElem? hold
  split
  · exact hchanged old hmem
  · exact h old hmem

theorem forall_modify (h : ∀ row ∈ o.rows, P row.2) (key : Bytes) {value : α} (hvalue : P value) :
    ∀ row ∈ (o.modify key fun _ => value).rows, P row.2 := by
  rw [Object.modify]
  split
  · exact h
  · exact forall_mem_modifyAt (P := fun row => P row.2) h _ fun _ _ => hvalue

theorem forall_indexed (h : ∀ row ∈ o.rows, P row.2) : ∀ row ∈ o.indexed.rows, P row.2 := by
  rw [indexed_rows]
  exact h

/-- What is stored comes into a row that is there already, which keeps its key, or into a new
row. -/
theorem forall_mem_insert {P : Held σ × α → Prop} (h : ∀ row ∈ o.rows, P row) {key : Held σ}
    {value : α} (hchanged : ∀ row ∈ o.rows, P (row.1, value)) (hnew : P (key, value)) :
    ∀ row ∈ (o.insert key value).2.rows, P row := by
  rw [Object.insert]
  split
  · refine forall_mem_modifyAt ?_ _ ?_
    · rwa [indexed_rows]
    · rwa [indexed_rows]
  · rw [append_rows, indexed_rows]
    exact List.forall_mem_append.mpr ⟨h, List.forall_mem_singleton.mpr hnew⟩

theorem forall_insert (h : ∀ row ∈ o.rows, P row.2) (key : Held σ) {value : α}
    (hvalue : P value) :
    (∀ old, (o.insert key value).1 = some old → P old) ∧
      ∀ row ∈ (o.insert key value).2.rows, P row.2 := by
  refine ⟨fun old hold => ?_,
    forall_mem_insert (P := fun row => P row.2) h (fun _ _ => hvalue) hvalue⟩
  rw [Object.insert] at hold
  split at hold
  · exact of_value?_eq_some h hold
  · cases hold

theorem forall_remove (h : ∀ row ∈ o.rows, P row.2) (key : Bytes) :
    (∀ old, (o.remove key).1 = some old → P old) ∧ ∀ row ∈ (o.remove key).2.rows, P row.2 := by
  rw [Object.remove]
  split
  · refine ⟨fun old hold => of_value?_eq_some h hold, fun row hrow => h row ?_⟩
    rw [takeOut_rows] at hrow
    exact List.mem_of_mem_eraseIdx hrow
  · refine ⟨fun old hold => ?_, forall_indexed h⟩
    cases hold

end Object

/-- Objects that follow the same rows store alike. -/
theorem Object.FollowsRows.insert_eq {o p : Object σ α} (ho : o.FollowsRows) (hp : p.FollowsRows)
    (hrows : o.rows = p.rows) (key : Held σ) (value : α) :
    ((o.insert key value).1, (o.insert key value).2.rows) =
      ((p.insert key value).1, (p.insert key value).2.rows) := by
  rw [ho.insert, hp.insert, hrows]

/-! ## §2 Relabelled rows -/

variable {g : Held σ → Held τ} {f : α → β}

namespace Rows

theorem keys_relabelled (hg : ∀ t, (g t).bytes = t.bytes) (rows : Rows σ α) :
    keys (rows.map (Prod.map g f)) = rows.keys := by
  rw [keys, List.map_map]
  exact List.map_congr_left fun row _ => hg row.1

theorem counting?_relabelled (hg : ∀ t, (g t).bytes = t.bytes) (rows : Rows σ α) (key : Bytes) :
    counting? (rows.map (Prod.map g f)) key = rows.counting? key :=
  counting?_of_keys (keys_relabelled hg rows) key

/-- The last row of each key can be picked before or after rows are relabelled. -/
theorem lastOfEach_relabelled (hg : ∀ t, (g t).bytes = t.bytes) (rows : Rows σ α) :
    lastOfEach (rows.map (Prod.map g f)) = (lastOfEach rows).map (Prod.map g f) := by
  induction rows with
  | nil => rfl
  | cons row rows ih =>
    have hsame : hasKey (rows.map (Prod.map g f)) (g row.1).bytes = hasKey rows row.1.bytes := by
      rw [Bool.eq_iff_iff, hasKey_iff, hasKey_iff, keys_relabelled hg, hg]
    rw [List.map_cons, lastOfEach, lastOfEach, ih, Prod.map_fst, hsame]
    split <;> rfl

omit [Readable σ] [Readable τ] in
/-- A value can be replaced before or after rows are relabelled. -/
theorem modify_map (rows : Rows σ α) (i : Nat) (value : α) :
    (rows.map (Prod.map g f)).modify i (fun row => (row.1, f value)) =
      (rows.modify i fun row => (row.1, value)).map (Prod.map g f) := by
  induction rows generalizing i with
  | nil => simp
  | cons row rows ih => cases i <;> simp [ih]

end Rows

namespace Object.FollowsRows

variable {o : Object σ α} (ho : o.FollowsRows) (hg : ∀ t, (g t).bytes = t.bytes)
include ho hg

theorem get?_relabelled (key : Bytes) :
    (ofRows (o.rows.map (Prod.map g f))).get? key = (o.get? key).map f := by
  rw [(followsRows_ofRows _).get?, ho.get?, ofRows, Rows.counting?_relabelled hg]
  cases o.rows.counting? key with
  | none => rfl
  | some i => simp [Function.comp_def]

theorem insert_relabelled (key : Held σ) (value : α) :
    (((ofRows (o.rows.map (Prod.map g f))).insert (g key) (f value)).1,
        ((ofRows (o.rows.map (Prod.map g f))).insert (g key) (f value)).2.rows) =
      ((o.insert key value).1.map f, (o.insert key value).2.rows.map (Prod.map g f)) := by
  have hinsert := congrArg (Prod.map (Option.map f) (List.map (Prod.map g f)))
    (ho.insert key value)
  rw [Prod.map_apply] at hinsert
  -- The same position counts for the key before and after.
  rw [(followsRows_ofRows _).insert, hinsert, ofRows, Rows.counting?_relabelled hg, hg]
  cases o.rows.counting? key.bytes with
  | none => simp
  | some i => simp [Rows.modify_map, Function.comp_def]

theorem remove_relabelled (key : Bytes) :
    (((ofRows (o.rows.map (Prod.map g f))).remove key).1,
        ((ofRows (o.rows.map (Prod.map g f))).remove key).2.rows) =
      ((o.remove key).1.map f, (o.remove key).2.rows.map (Prod.map g f)) := by
  have hremove := congrArg (Prod.map (Option.map f) (List.map (Prod.map g f))) (ho.remove key)
  rw [Prod.map_apply] at hremove
  rw [(followsRows_ofRows _).remove, hremove, ofRows, Rows.counting?_relabelled hg]
  cases o.rows.counting? key with
  | none => rfl
  | some i => simp [List.eraseIdx_map, Function.comp_def]

theorem modify_relabelled (key : Bytes) (value : α) :
    ((ofRows (o.rows.map (Prod.map g f))).modify key fun _ => f value).rows =
      (o.modify key fun _ => value).rows.map (Prod.map g f) := by
  rw [(followsRows_ofRows _).modify, ho.modify, ofRows, Rows.counting?_relabelled hg]
  cases o.rows.counting? key with
  | none => rfl
  | some i => exact Rows.modify_map _ i value

end Object.FollowsRows

end JsonTree
