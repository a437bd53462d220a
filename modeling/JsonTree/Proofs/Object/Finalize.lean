import JsonTree.Object
import JsonTree.Proofs.Object.Table

/-!
# Dropping repeated keys

An object drops repeated keys in one of two ways: a small one takes rows out one by one, a large one
marks what a fresh index leads to and moves the marked rows together. On the rows both do the same,
and keep the last row of each key. Moving rows together is one loop with two cursors: what lies
before the place that is written next is settled, and what lies from the row that is read next on is
untouched.

## Main definitions

- `Rows.marked`: the marked ones of some rows.

## Main statements

- `Object.sweep_rows`: the loop leaves the marked rows.
- `Table.Files.marked_marks`: the slots of a table mark the last row of each key.
- `Object.settle_rows`: taking rows out one by one keeps the last row of each key.
- `Object.finalize_rows`: dropping repeated keys keeps the last row of each key, at every size.
- `Object.collect_rows`: the rows of a collected object.
-/

namespace JsonTree

/-! ## §1 Marked rows -/

namespace Rows

variable {σ α : Type}

/-- The marked ones of some rows. -/
def marked : Rows σ α → List Bool → Rows σ α
  | row :: rows, true :: marks => row :: marked rows marks
  | _ :: rows, false :: marks => marked rows marks
  | _, _ => []

theorem marked_nil (marks : List Bool) : marked ([] : Rows σ α) marks = [] := by
  rw [marked] <;> exact nofun

theorem marked_replicate_true (rows : Rows σ α) :
    rows.marked (List.replicate rows.length true) = rows := by
  induction rows with
  | nil => rfl
  | cons row rows ih => rw [List.length_cons, List.replicate_succ, marked, ih]

/-- All rows but one. -/
theorem marked_set_false (rows : Rows σ α) (i : Nat) :
    rows.marked ((List.replicate rows.length true).set i false) = rows.eraseIdx i := by
  induction rows generalizing i with
  | nil => rfl
  | cons row rows ih =>
    rw [List.length_cons, List.replicate_succ]
    cases i with
    | zero => rw [List.set_cons_zero, marked, marked_replicate_true, List.eraseIdx_cons_zero]
    | succ i => rw [List.set_cons_succ, marked, ih, List.eraseIdx_cons_succ]

theorem marked_map (p : (Held σ × α) × Nat → Bool) (entries : List ((Held σ × α) × Nat)) :
    marked (entries.map (·.1)) (entries.map p) = (entries.filter p).map (·.1) := by
  induction entries with
  | nil => rfl
  | cons entry entries ih =>
    rw [List.map_cons, List.map_cons, List.filter_cons]
    cases p entry with
    | true => rw [marked, ih, if_pos rfl, List.map_cons]
    | false => rw [marked, ih, if_neg Bool.false_ne_true]

end Rows

namespace Table

theorem after_after (t : Table) (changes later : List Change) :
    (t.after changes).after later = t.after (changes ++ later) := by
  simp [after, Function.comp_def]

theorem getElem?_foldl_set (chain : List Slot) (marks : List Bool) (i : Nat) :
    (chain.foldl (fun marks s => marks.set s.position true) marks)[i]? =
      marks[i]?.map (· || chain.any (·.position == i)) := by
  induction chain generalizing marks with
  | nil => simp
  | cons s chain ih =>
    rw [List.foldl_cons, ih, List.getElem?_set, List.any_cons]
    by_cases hposition : s.position = i
    · subst hposition
      by_cases hlt : s.position < marks.length <;> simp [hlt]
    · have hother : (s.position == i) = false := beq_eq_false_iff_ne.mpr hposition
      rw [if_neg hposition, hother]
      rfl

theorem length_marks (t : Table) (n : Nat) : (t.marks n).length = n := by
  have hset : ∀ (chain : List Slot) (marks : List Bool),
      (chain.foldl (fun marks s => marks.set s.position true) marks).length = marks.length := by
    intro chain
    induction chain with
    | nil => exact fun _ => rfl
    | cons s chain ih => exact fun marks => (ih _).trans List.length_set
  exact (hset t.chain _).trans List.length_replicate

variable {σ α : Type} [Readable σ]

/-- The slots of a table mark the last row of each key. -/
theorem Files.marks_eq {t : Table} {rows : Rows σ α} (h : t.Files rows) :
    t.marks rows.length = rows.zipIdx.map fun (row, i) => rows.last? row.1.bytes == some i := by
  refine List.ext_getElem? fun i => ?_
  rw [marks, getElem?_foldl_set, List.getElem?_map, List.getElem?_zipIdx, Nat.zero_add]
  cases hrow : rows[i]? with
  | none =>
    have hle : rows.length ≤ i := List.getElem?_eq_none_iff.mp hrow
    rw [List.getElem?_eq_none (by simpa using hle)]
    rfl
  | some row =>
    have hlt : i < rows.length := (List.getElem?_eq_some_iff.mp hrow).1
    rw [List.getElem?_replicate, if_pos hlt]
    -- A slot leads here exactly if this is the last row of its key.
    have hslot := h.exists_slot_iff i
    simp only [hrow, Option.some.injEq, exists_eq_left'] at hslot
    simp only [Option.map_some, Bool.false_or, Option.some.injEq]
    rw [Bool.eq_iff_iff, beq_iff_eq, ← hslot, List.any_eq_true]
    simp only [beq_iff_eq]

theorem Files.marked_marks {t : Table} {rows : Rows σ α} (h : t.Files rows) :
    rows.marked (t.marks rows.length) = Rows.lastOfEach rows := by
  have hmarked := Rows.marked_map (fun (row, i) => rows.last? row.1.bytes == some i) rows.zipIdx
  rw [List.zipIdx_map_fst] at hmarked
  rw [h.marks_eq, hmarked]
  exact Rows.map_fst_led rows

end Table

namespace Object

variable {σ α : Type}

/-! ## §2 The loop -/

@[simp]
theorem modifyAt_rows (o : Object σ α) (i : Nat) (f : α → α) :
    (o.modifyAt i f).rows = o.rows.modify i fun row => (row.1, f row.2) := rfl

theorem shift_rows {o : Object σ α} {source : Nat} {row : Held σ × α}
    (h : o.rows[source]? = some row) (target : Nat) :
    (o.shift source target).rows = o.rows.set target row := by rw [shift, h]

/-- The marked rows are left. The rows before the place that is written next are settled, and those
from the row that is read next on are as they were. -/
theorem sweep_rows (marks : List Bool) (o : Object σ α) {i write : Nat} (hwrite : write ≤ i)
    (hlength : o.rows.length = i + marks.length) :
    (o.sweep marks i write).rows = o.rows.take write ++ Rows.marked (o.rows.drop i) marks := by
  induction marks generalizing o i write with
  | nil =>
    have hend : o.rows.length ≤ i := Nat.le_of_eq hlength
    rw [List.drop_eq_nil_of_le hend, Rows.marked_nil, List.append_nil, sweep, truncate]
  | cons mark marks ih =>
    rw [List.length_cons] at hlength
    have hi : i < o.rows.length := by omega
    have hdrop : o.rows.drop i = o.rows[i] :: o.rows.drop (i + 1) := List.drop_eq_getElem_cons hi
    cases mark with
    | false =>
      rw [sweep, ih o (by omega) (by omega), hdrop, Rows.marked]
    | true =>
      rw [sweep, hdrop, Rows.marked]
      by_cases heq : write = i
      -- Nothing was lost so far, and the row is already in its place.
      · subst heq
        rw [if_pos rfl, ih o (by omega) (by omega), List.take_succ_eq_append_getElem hi,
          List.append_assoc]
        rfl
      -- The row is written before the one that is read, so what is still to be read stays.
      · have hset := shift_rows (List.getElem?_eq_getElem hi) write
        have hlt : write < o.rows.length := by omega
        have htake : (o.rows.set write o.rows[i]).take (write + 1) =
            o.rows.take write ++ [o.rows[i]] := by
          rw [List.take_succ_eq_append_getElem (by simpa using hlt), List.getElem_set_self,
            List.take_set_of_le (Nat.le_refl write)]
        rw [if_neg heq, ih _ (by omega) (by rw [hset, List.length_set]; omega), hset, htake,
          List.drop_set_of_lt (by omega), List.append_assoc]
        rfl

/-- A row is taken out of the list. -/
@[simp]
theorem takeOut_rows (o : Object σ α) (i : Nat) : (o.takeOut i).rows = o.rows.eraseIdx i := by
  rw [takeOut, sweep_rows _ o (Nat.le_refl 0) (by simp [size]), List.take_zero, List.nil_append,
    List.drop_zero]
  exact Rows.marked_set_false o.rows i

/-- A move changes what the slots of an index spell. It makes no index. -/
theorem exists_index_shift (o : Object σ α) (source target : Nat) :
    ∃ changes, (o.shift source target).index = o.index.map (·.after changes) := by
  rw [shift]
  split
  · exact ⟨[], by simp [Table.after]⟩
  · exact ⟨_, rfl⟩

theorem exists_index_sweep (marks : List Bool) (o : Object σ α) (i write : Nat) :
    ∃ changes, (o.sweep marks i write).index = o.index.map (·.after changes) := by
  induction marks generalizing o i write with
  | nil => exact ⟨_, rfl⟩
  | cons mark marks ih =>
    cases mark with
    | false => exact ih o (i + 1) write
    | true =>
      rw [sweep]
      split
      · exact ih o (i + 1) (write + 1)
      · obtain ⟨later, hlater⟩ := ih (o.shift i write) (i + 1) (write + 1)
        obtain ⟨changes, hchanges⟩ := o.exists_index_shift i write
        refine ⟨changes ++ later, ?_⟩
        rw [hlater, hchanges, Option.map_map]
        simp only [Function.comp_def, Table.after_after]

/-- Without an index nothing is put out of step. -/
theorem sweep_index_none {o : Object σ α} (h : o.index = none) (marks : List Bool)
    (i write : Nat) : (o.sweep marks i write).index = none := by
  obtain ⟨changes, hindex⟩ := o.exists_index_sweep marks i write
  rw [hindex, h, Option.map_none]

theorem takeOut_index_none {o : Object σ α} (h : o.index = none) (i : Nat) :
    (o.takeOut i).index = none := sweep_index_none h _ 0 0

variable [Readable σ]

@[simp]
theorem append_rows (o : Object σ α) (key : Held σ) (value : α) :
    (o.append key value).rows = o.rows ++ [(key, value)] := by
  rw [append]
  split <;> rfl

@[simp]
theorem reserve_rows (o : Object σ α) (n : Nat) : (o.reserve n).rows = o.rows := by
  rw [reserve]
  split <;> rfl

theorem files_refiled (o : Object σ α) : o.refiled.Files o.rows := Table.files_ofRows ..

/-- What a fresh index leads to is moved together, or is all there is. -/
@[simp]
theorem compact_rows (o : Object σ α) : o.compact.rows = Rows.lastOfEach o.rows := by
  have hfiles := o.files_refiled
  rw [compact]
  dsimp only
  split
  · rw [sweep_rows _ _ (Nat.le_refl 0) (by simp [Table.length_marks, size]), List.take_zero,
      List.nil_append, List.drop_zero]
    exact hfiles.marked_marks
  -- As many slots as rows: there was nothing to lose.
  · rename_i hall
    rw [hfiles.length_chain, Nat.not_lt] at hall
    exact ((Rows.lastOfEach_sublist o.rows).eq_of_length_le hall).symm

/-! ## §3 Taking rows out one by one -/

theorem isRepeated_of_drop {o : Object σ α} {i : Nat} {row : Held σ × α} {rows : Rows σ α}
    (hdrop : o.rows.drop i = row :: rows) : o.isRepeated i = Rows.hasKey rows row.1.bytes := by
  rw [isRepeated, hdrop]

/-- Taking rows out one by one, from a position on, keeps the rows before it and then the last row
of each key. -/
theorem settle_rows (n i : Nat) (o : Object σ α) (hlength : o.rows.length = i + n) :
    (settle n i o).rows = o.rows.take i ++ Rows.lastOfEach (o.rows.drop i) := by
  -- The rows before `i` are settled. Each step takes one row out or settles one more.
  induction n generalizing i o with
  | zero =>
    have hdrop : o.rows.drop i = [] := List.drop_eq_nil_of_le (by omega)
    rw [settle, hdrop, Rows.lastOfEach, List.append_nil, List.take_of_length_le (by omega)]
  | succ n ih =>
    have hi : i < o.rows.length := by omega
    have hdrop : o.rows.drop i = o.rows[i] :: o.rows.drop (i + 1) := List.drop_eq_getElem_cons hi
    rw [settle, isRepeated_of_drop hdrop, hdrop, Rows.lastOfEach]
    cases hkey : Rows.hasKey (o.rows.drop (i + 1)) o.rows[i].1.bytes with
    | true =>
      have herase : (o.takeOut i).rows = o.rows.take i ++ o.rows.drop (i + 1) := by
        rw [takeOut_rows, List.eraseIdx_eq_take_drop_succ]
      have htake : (o.rows.take i).length = i := List.length_take_of_le (Nat.le_of_lt hi)
      have hrest : (o.takeOut i).rows.length = i + n := by
        rw [herase, List.length_append, htake, List.length_drop]
        omega
      rw [if_pos rfl, if_pos rfl, ih i (o.takeOut i) hrest, herase, List.take_left' htake,
        List.drop_left' htake]
    | false =>
      rw [if_neg Bool.false_ne_true, ih (i + 1) o (by omega),
        ← List.take_append_getElem hi, List.append_assoc]
      rfl

/-! ## §4 The rows that are left -/

/-- Dropping repeated keys keeps the last row of each key, whatever the size. -/
@[simp]
theorem finalize_rows (o : Object σ α) : o.finalize.rows = Rows.lastOfEach o.rows := by
  rw [finalize]
  split
  · rw [settle_rows o.size 0 o (by simp [size])]
    simp
  · exact o.compact_rows

theorem finalize_nodup (o : Object σ α) : o.finalize.rows.keys.Nodup := by
  rw [finalize_rows]
  exact Rows.keys_lastOfEach_nodup o.rows

theorem foldl_append_rows (rows : Rows σ α) (o : Object σ α) :
    (rows.foldl (fun o row => o.append row.1 row.2) o).rows = o.rows ++ rows := by
  induction rows generalizing o with
  | nil => simp
  | cons row rows ih => rw [List.foldl_cons, ih, append_rows, List.append_assoc]; rfl

/-- A collected object has the last row of each key. -/
@[simp]
theorem collect_rows (rows : Rows σ α) : (collect rows).rows = Rows.lastOfEach rows := by
  rw [collect, finalize_rows, foldl_append_rows, reserve_rows]
  rfl

end Object

end JsonTree
