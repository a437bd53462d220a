import JsonTree.Proofs.Object.Finalize
import JsonTree.Proofs.Object.Table
import Mathlib.Logic.Function.Basic

/-!
# Runs of operations on objects

Operations act on a store of objects, one object at a time; copying and handing over read a second
one. What an object answers should follow from its rows alone, and its index, where there is one,
should lead each stored key to the last row that has it. Both hold as long as the index is in step
with the rows, and every operation keeps it so but one: dropping repeated keys in a small object
that has an index. Right after it the index leads some key to a position behind the last row.

## Main definitions

- `Object.Call`, `Object.Op`: the operations, without and with unchecked appends.
- `Object.run`: the answers and the store after a list of operations.
- `Object.FollowsRows`, `Object.IndexInStep`: what should hold of every object.
- `Object.SettlesBesideIndex`: the one state in which dropping repeated keys puts the index out of
  step.

## Main statements

- `Object.step_fresh`: every other step keeps all indices in step.
- `Object.run_inStep_iff`: a run keeps to the rows exactly if no step of it is that one.
-/

namespace JsonTree

/-! ## §1 Stores and operations -/

namespace Object

/-- The operations that keep keys distinct. -/
inductive Call (σ α : Type) where
  | insert (key : Held σ) (value : α)
  | remove (key : Bytes)
  | find (key : Bytes)
  | contains (key : Bytes)
  /-- Assign to the value that is found under a key. -/
  | store (key : Bytes) (value : α)
  | finalize
  | clear
  | reserve (n : Nat)
  /-- Become a new copy of another object. -/
  | copy (source : Nat)
  /-- Take over the rows of another object by copying them. -/
  | assign (source : Nat)
  /-- Take over another object, which is empty afterwards. -/
  | move (source : Nat)

/-- All operations. -/
inductive Op (σ α : Type) where
  | call (c : Call σ α)
  /-- Add a row, whether or not its key is there already. -/
  | append (key : Held σ) (value : α)

/-- What an operation answers. -/
inductive Answer (α : Type) where
  | done
  | value (v : Option α)
  | found (b : Bool)

/-- Objects by number. -/
abbrev Store (σ α : Type) := Nat → Object σ α

variable {σ α : Type} [Readable σ]

/-- The store of empty objects. -/
def Store.empty : Store σ α := fun _ => .empty

/-- Carry out a call on an object of a store. -/
def Call.run (s : Store σ α) (i : Nat) : Call σ α → Answer α × Store σ α
  | .insert key value =>
    let (old, o) := (s i).insert key value
    (.value old, Function.update s i o)
  | .remove key =>
    let (old, o) := (s i).remove key
    (.value old, Function.update s i o)
  | .find key => (.value ((s i).get? key), Function.update s i (s i).indexed)
  | .contains key => (.found ((s i).contains key), Function.update s i (s i).indexed)
  | .store key value =>
    (.found ((s i).contains key), Function.update s i ((s i).indexed.modify key fun _ => value))
  | .finalize => (.done, Function.update s i (s i).finalize)
  | .clear => (.done, Function.update s i (s i).clear)
  | .reserve n => (.done, Function.update s i ((s i).reserve n))
  | .copy source => (.done, Function.update s i (s source).copy)
  | .assign source =>
    (.done, if source = i then s else Function.update s i ((s i).assign (s source)))
  | .move source =>
    let (moved, left) := (s source).handOver
    (.done, if source = i then s else Function.update (Function.update s i moved) source left)

/-- Carry out an operation on an object of a store. -/
def Op.run (s : Store σ α) (i : Nat) : Op σ α → Answer α × Store σ α
  | .call c => c.run s i
  | .append key value => (.done, Function.update s i ((s i).append key value))

/-- Carry out operations in order, each on the object that stands before it. -/
def run (s : Store σ α) : List (Nat × Op σ α) → List (Answer α) × Store σ α
  | [] => ([], s)
  | (i, op) :: ops =>
    let (answer, s) := op.run s i
    let (answers, s) := run s ops
    (answer :: answers, s)

end Object

/-- The position of the row that should count for a key: the first one of a few rows, the last one
of many. -/
def Rows.counting? {σ α : Type} [Readable σ] (rows : Rows σ α) (key : Bytes) : Option Nat :=
  if rows.length < indexThreshold then rows.first? key else rows.last? key

theorem Rows.counting?_isSome_iff {σ α : Type} [Readable σ] (rows : Rows σ α) (key : Bytes) :
    (rows.counting? key).isSome = true ↔ key ∈ rows.keys := by
  rw [counting?]
  split
  · exact first?_isSome_iff rows key
  · exact last?_isSome_iff rows key

/-- Which row counts for a key depends on the keys alone. -/
theorem Rows.counting?_of_keys {σ τ α β : Type} [Readable σ] [Readable τ] {rows : Rows σ α}
    {others : Rows τ β} (hkeys : others.keys = rows.keys) (key : Bytes) :
    others.counting? key = rows.counting? key := by
  have hlength : others.length = rows.length := by simpa [keys] using congrArg List.length hkeys
  rw [counting?, counting?, hlength, first?_of_keys hkeys, last?_of_keys hkeys]

namespace Object

variable {σ α : Type} [Readable σ]

/-! ## §2 What should hold of every object -/

/-- What an object answers, and what it does, follows from its rows alone. -/
structure FollowsRows (o : Object σ α) : Prop where
  /-- The value of the row that counts is found. -/
  get? : ∀ key, o.get? key = (o.rows.counting? key).bind fun i => (o.rows[i]?).map (·.2)
  /-- A key is found exactly if some row has it. -/
  contains : ∀ key, o.contains key = true ↔ key ∈ o.rows.keys
  /-- Storing replaces the value of the row that counts, or adds a row. -/
  insert : ∀ key value, ((o.insert key value).1, (o.insert key value).2.rows) =
    match o.rows.counting? key.bytes with
    | some i => ((o.rows[i]?).map (·.2), o.rows.modify i fun row => (row.1, value))
    | none => (none, o.rows ++ [(key, value)])
  /-- Removing takes out the row that counts. -/
  remove : ∀ key, ((o.remove key).1, (o.remove key).2.rows) =
    match o.rows.counting? key with
    | some i => ((o.rows[i]?).map (·.2), o.rows.eraseIdx i)
    | none => (none, o.rows)
  /-- Assigning to what is found changes the value of the row that counts. -/
  modify : ∀ key f, (o.modify key f).rows =
    match o.rows.counting? key with
    | some i => o.rows.modify i fun row => (row.1, f row.2)
    | none => o.rows

/-- The index, where there is one, leads exactly the stored keys, each to the last row that has it,
and that is what looking a key up in it gives. -/
def IndexInStep (o : Object σ α) : Prop :=
  ∀ table, o.index = some table →
    (∀ key i, table.Leads key i ↔ o.rows.last? key = some i) ∧
    ∀ key, table.position? key = o.rows.last? key

/-- Repeated keys are about to be dropped from a small object that has an index. -/
def SettlesBesideIndex (o : Object σ α) : Prop :=
  o.size < indexThreshold ∧ o.index ≠ none ∧ ¬ o.rows.keys.Nodup

/-- The index, where there is one, is a table that the rows were filed in. -/
def Fresh (o : Object σ α) : Prop := ∀ table, o.index = some table → table.Files o.rows

theorem Fresh.indexInStep {o : Object σ α} (h : o.Fresh) : IndexInStep o :=
  fun table htable => ⟨(h table htable).leads, (h table htable).position?⟩

theorem fresh_of_none {o : Object σ α} (h : o.index = none) : o.Fresh := by
  intro table htable
  rw [h] at htable
  cases htable

theorem fresh_of_files {o : Object σ α} {t : Table} (h : o.index = some t) (ht : t.Files o.rows) :
    o.Fresh := by
  intro table htable
  obtain rfl : t = table := Option.some.inj (h.symm.trans htable)
  exact ht

/-- The table that a large object is searched with is its index, or made of its rows. -/
theorem Fresh.files_table {o : Object σ α} (h : o.Fresh) : o.table.Files o.rows := by
  rw [table]
  cases hindex : o.index with
  | none => exact o.files_refiled
  | some table => exact h table hindex

theorem Fresh.position? {o : Object σ α} (h : o.Fresh) (key : Bytes) :
    o.position? key = o.rows.counting? key := by
  rw [Object.position?, Rows.counting?, h.files_table.position?, size]
  by_cases hsize : o.rows.length < indexThreshold
  · rw [if_pos hsize, if_pos hsize]
  -- The last row of a key is not beyond the rows.
  · rw [if_neg hsize, if_neg hsize]
    cases hlast : o.rows.last? key with
    | none => rfl
    | some i => rw [Option.filter_some, if_pos (decide_eq_true (Rows.lt_of_last? hlast))]

@[simp]
theorem indexed_rows (o : Object σ α) : o.indexed.rows = o.rows := by
  rw [indexed]
  split <;> rfl

theorem Fresh.followsRows {o : Object σ α} (h : o.Fresh) : FollowsRows o where
  get? key := by
    rw [Object.get?, h.position?]
    cases o.rows.counting? key with
    | none => rfl
    | some i => cases hrow : o.rows[i]? <;> simp [hrow]
  contains key := by rw [Object.contains, h.position?, Rows.counting?_isSome_iff]
  insert key value := by
    rw [Object.insert, h.position?]
    cases o.rows.counting? key.bytes <;> simp
  remove key := by
    rw [Object.remove, h.position?]
    cases o.rows.counting? key <;> simp
  modify key f := by
    rw [Object.modify, h.position?]
    cases o.rows.counting? key <;> simp

/-! ## §3 Operations that keep the index in step -/

theorem followsRows_ofRows (rows : Rows σ α) : FollowsRows (ofRows rows) :=
  (fresh_of_none rfl).followsRows

theorem Fresh.indexed {o : Object σ α} (h : o.Fresh) : o.indexed.Fresh := by
  rw [Object.indexed]
  split
  · exact h
  · exact fresh_of_files rfl h.files_table

/-- Values are not filed. -/
theorem Fresh.modifyAt {o : Object σ α} (h : o.Fresh) (i : Nat) (f : α → α) :
    (o.modifyAt i f).Fresh :=
  fun table htable => (h table htable).of_keys
    (Rows.map_modify_eq (fun row : Held σ × α => (row.1, f row.2)) _ (fun _ => rfl) o.rows i)

theorem Fresh.modify {o : Object σ α} (h : o.Fresh) (key : Bytes) (f : α → α) :
    (o.modify key f).Fresh := by
  rw [Object.modify]
  split
  · exact h
  · exact h.modifyAt _ f

/-- Whatever the index was, it is filed anew. -/
theorem fresh_relocated (o : Object σ α) : o.relocated.Fresh := by
  intro table htable
  obtain ⟨-, -, rfl⟩ := Option.map_eq_some_iff.mp htable
  exact o.files_refiled

theorem Fresh.reserve {o : Object σ α} (h : o.Fresh) (n : Nat) : (o.reserve n).Fresh := by
  rw [Object.reserve]
  split
  · exact fresh_relocated _
  · exact h

/-- In the room that is left the new row is filed under its place. -/
theorem Fresh.append {o : Object σ α} (h : o.Fresh) (key : Held σ) (value : α) :
    (o.append key value).Fresh := by
  rw [Object.append]
  split
  · intro table htable
    obtain ⟨t, ht, rfl⟩ := Option.map_eq_some_iff.mp htable
    have hfiles := h t ht
    rw [size, hfiles.after_placed]
    exact hfiles.file _ (key, value)
  · exact fresh_relocated _

theorem Fresh.insert {o : Object σ α} (h : o.Fresh) (key : Held σ) (value : α) :
    (o.insert key value).2.Fresh := by
  rw [Object.insert]
  split
  · exact h.indexed.modifyAt _ _
  · exact h.indexed.append key value

theorem Fresh.remove {o : Object σ α} (h : o.Fresh) (key : Bytes) : (o.remove key).2.Fresh := by
  rw [Object.remove]
  split
  · exact fresh_of_none rfl
  · exact h.indexed

theorem settle_index_none (n i : Nat) {o : Object σ α} (h : o.index = none) :
    (settle n i o).index = none := by
  induction n generalizing i o with
  | zero => exact h
  | succ n ih =>
    rw [settle]
    split
    · exact ih i (takeOut_index_none h i)
    · exact ih (i + 1) h

/-- Where keys do not repeat, no row is taken out. -/
theorem settle_eq_self (n i : Nat) {o : Object σ α} (hdistinct : o.rows.keys.Nodup) :
    settle n i o = o := by
  induction n generalizing i with
  | zero => rfl
  | succ n ih =>
    have hrepeated : o.isRepeated i = false := by
      cases hdrop : o.rows.drop i with
      | nil => rw [isRepeated, hdrop]
      | cons row rows =>
        have hsub : (Rows.keys (row :: rows)).Sublist o.rows.keys := by
          rw [← hdrop]
          exact (List.drop_sublist i o.rows).map _
        rw [isRepeated_of_drop hdrop, Rows.hasKey_eq_false_iff]
        exact (List.nodup_cons.mp (hdistinct.sublist hsub)).1
    rw [settle, hrepeated]
    exact ih (i + 1)

/-- A large object has an index of its rows afterwards. -/
theorem fresh_compact (o : Object σ α) : o.compact.Fresh := by
  rw [compact]
  dsimp only
  split
  · exact fresh_of_files rfl (files_refiled _)
  · exact fresh_of_files rfl o.files_refiled

theorem Fresh.finalize {o : Object σ α} (h : o.Fresh) (hsafe : ¬ SettlesBesideIndex o) :
    o.finalize.Fresh := by
  rw [Object.finalize]
  split
  · rename_i hsmall
    -- A small object loses rows here, which is safe without an index or without repetitions.
    by_cases hindex : o.index = none
    · exact fresh_of_none (settle_index_none o.size 0 hindex)
    · have hdistinct : o.rows.keys.Nodup := by
        by_contra hrepeated
        exact hsafe ⟨hsmall, hindex, hrepeated⟩
      rwa [settle_eq_self o.size 0 hdistinct]
  · exact fresh_compact o

theorem fresh_update {s : Store σ α} (hs : ∀ j, (s j).Fresh) (i : Nat) {o : Object σ α}
    (h : o.Fresh)
    (j : Nat) : (Function.update s i o j).Fresh :=
  (Function.forall_update_iff s fun _ o => o.Fresh).mpr ⟨h, fun j _ => hs j⟩ j

theorem Fresh.assign (o source : Object σ α) : (o.assign source).Fresh := by
  rw [Object.assign]
  split <;> exact fresh_of_none rfl

/-- Every step keeps all indices in step, unless it drops repeated keys in a small object that has
an index. -/
theorem step_fresh {s : Store σ α} (hs : ∀ j, (s j).Fresh) (i : Nat) (op : Op σ α)
    (hsafe : op = .call .finalize → ¬ SettlesBesideIndex (s i)) (j : Nat) :
    ((op.run s i).2 j).Fresh := by
  cases op with
  | append key value => exact fresh_update hs i ((hs i).append key value) j
  | call c =>
    -- Copying and moving touch a second object, the others only one.
    cases c with
    | insert key value => exact fresh_update hs i ((hs i).insert key value) j
    | remove key => exact fresh_update hs i ((hs i).remove key) j
    | find key => exact fresh_update hs i (hs i).indexed j
    | contains key => exact fresh_update hs i (hs i).indexed j
    | store key value => exact fresh_update hs i ((hs i).indexed.modify key _) j
    | finalize => exact fresh_update hs i ((hs i).finalize (hsafe rfl)) j
    | clear => exact fresh_update hs i (fresh_of_none rfl) j
    | reserve n => exact fresh_update hs i ((hs i).reserve n) j
    | copy source => exact fresh_update hs i (fresh_of_none rfl) j
    | assign source =>
      rw [Op.run, Call.run]
      dsimp only
      split
      · exact hs j
      · exact fresh_update hs i (Fresh.assign (s i) (s source)) j
    | move source =>
      rw [Op.run, Call.run]
      dsimp only
      split
      · exact hs j
      · exact fresh_update (fresh_update hs i (hs source)) source (fresh_of_none rfl) j

/-! ## §4 The operation that does not -/

/-- The positions that the slots of the index hold. -/
def positions (o : Object σ α) : List Nat := o.index.elim [] fun t => t.chain.map Slot.position

theorem after_position (s : Slot) (change : Change) : (s.after change).position = s.position := by
  cases change <;> grind [Slot.after]

theorem foldl_after_position (s : Slot) (changes : List Change) :
    (changes.foldl Slot.after s).position = s.position := by
  induction changes generalizing s with
  | nil => rfl
  | cons change changes ih => rw [List.foldl_cons, ih, after_position]

omit [Readable σ] in
/-- Taking a row out leaves every slot with the position that it had. -/
theorem takeOut_positions (o : Object σ α) (i : Nat) : (o.takeOut i).positions = o.positions := by
  -- The moves change what slots spell, never the positions that they hold.
  obtain ⟨changes, hindex⟩ := o.exists_index_sweep ((List.replicate o.size true).set i false) 0 0
  rw [positions, positions, takeOut, hindex]
  cases o.index with
  | none => rfl
  | some table => simp [Table.after, foldl_after_position, Function.comp_def]

theorem settle_positions (n i : Nat) (o : Object σ α) : (settle n i o).positions = o.positions := by
  induction n generalizing i o with
  | zero => rfl
  | succ n ih =>
    rw [settle]
    split
    · rw [ih, takeOut_positions]
    · exact ih (i + 1) o

/-- An index that is in step holds the position of the last row. -/
theorem mem_positions_of_inStep {o : Object σ α} (h : IndexInStep o) (hindex : o.index ≠ none)
    {rows : Rows σ α} {row : Held σ × α} (hrows : o.rows = rows ++ [row]) :
    rows.length ∈ o.positions := by
  obtain ⟨table, htable⟩ := Option.ne_none_iff_exists'.mp hindex
  have hlast : o.rows.last? row.1.bytes = some rows.length := by
    rw [hrows, Rows.last?_append_singleton, if_pos rfl]
  obtain ⟨s, hs, -, hposition⟩ := ((h table htable).1 row.1.bytes rows.length).mpr hlast
  rw [positions, htable]
  exact List.mem_map.mpr ⟨s, hs, hposition⟩

/-- An index that is in step holds no position behind the last row. -/
theorem lt_size_of_mem_positions {o : Object σ α} (h : IndexInStep o) {i : Nat}
    (hi : i ∈ o.positions) : i < o.rows.length := by
  rw [positions] at hi
  cases htable : o.index with
  | none => simp [htable] at hi
  | some table =>
    rw [htable] at hi
    obtain ⟨s, hs, rfl⟩ := List.mem_map.mp hi
    exact Rows.lt_of_last? (((h table htable).1 s.spelled s.position).mp ⟨s, hs, rfl, rfl⟩)

/-- Dropping repeated keys in a small object that has an index puts the index out of step: a slot
keeps the position of the row that was last, and there are fewer rows now. -/
theorem not_indexInStep_finalize {o : Object σ α} (h : IndexInStep o)
    (hsettles : SettlesBesideIndex o) : ¬ IndexInStep o.finalize := by
  obtain ⟨hsmall, hindex, hrepeated⟩ := hsettles
  intro hafter
  -- The last row is never taken out, so a slot still holds its old position afterwards.
  have hne : o.rows ≠ [] := by
    rintro hnil
    simp [hnil] at hrepeated
  have hrows := (List.dropLast_concat_getLast hne).symm
  have hmem : o.rows.dropLast.length ∈ o.finalize.positions := by
    rw [Object.finalize, if_pos hsmall, settle_positions]
    exact mem_positions_of_inStep h hindex hrows
  have hlt := lt_size_of_mem_positions hafter hmem
  -- But rows were lost, and that position now lies behind the last row.
  have hlost := Rows.length_lastOfEach_lt hrepeated
  rw [finalize_rows, List.length_dropLast] at hlt
  omega

/-! ## §5 Whole runs -/

/-- The store after the first operations of a list. -/
def after (ops : List (Nat × Op σ α)) (n : Nat) : Store σ α := (run .empty (ops.take n)).2

theorem run_append (s : Store σ α) (ops ops' : List (Nat × Op σ α)) :
    (run s (ops ++ ops')).2 = (run (run s ops).2 ops').2 := by
  induction ops generalizing s with
  | nil => rfl
  | cons op ops ih => exact ih _

theorem after_succ {ops : List (Nat × Op σ α)} {n i : Nat} {op : Op σ α}
    (h : ops[n]? = some (i, op)) : after ops (n + 1) = (op.run (after ops n) i).2 := by
  rw [after, List.take_add_one, h, run_append]
  rfl

/-- As long as no step of a run drops repeated keys in a small object that has an index, no index
is out of step. -/
theorem after_fresh {ops : List (Nat × Op σ α)}
    (hsafe : ∀ n i, ops[n]? = some (i, .call .finalize) → ¬ SettlesBesideIndex (after ops n i))
    (n i : Nat) : (after ops n i).Fresh := by
  induction n generalizing i with
  | zero => exact fresh_of_none rfl
  | succ n ih =>
    cases hop : ops[n]? with
    | none =>
      -- The run is over: the store stays as it was.
      have hend : ops.length ≤ n := List.getElem?_eq_none_iff.mp hop
      have hsame : after ops (n + 1) = after ops n := by
        rw [after, after, List.take_of_length_le hend, List.take_of_length_le (by omega)]
      rw [hsame]
      exact ih i
    | some step =>
      obtain ⟨j, op⟩ := step
      rw [after_succ hop]
      exact step_fresh ih j op (fun heq => hsafe n j (heq ▸ hop)) i

/-- A run keeps to the rows, and every index in step with them, exactly if no step of it drops
repeated keys in a small object that has an index. -/
theorem run_inStep_iff (ops : List (Nat × Op σ α)) :
    (∀ n i, FollowsRows (after ops n i) ∧ IndexInStep (after ops n i)) ↔
      ∀ n i, ops[n]? = some (i, .call .finalize) → ¬ SettlesBesideIndex (after ops n i) := by
  constructor
  · intro h n i hop hsettles
    have hnext := (h (n + 1) i).2
    rw [after_succ hop] at hnext
    -- The state after the step would be in step, which that step never leaves behind.
    refine not_indexInStep_finalize (h n i).2 hsettles ?_
    simpa [Op.run, Call.run] using hnext
  · intro hsafe n i
    have hfresh := after_fresh hsafe n i
    exact ⟨hfresh.followsRows, hfresh.indexInStep⟩

/-- The key `a` is appended sixteen times and collapsed, which leaves one row and its index. Once
more it is appended and collapsed, and then fifteen other keys are inserted in the room that is
left. -/
def crossingRun : List (Nat × Op Bytes Nat) :=
  let key (n : Nat) : Text := .owned [UInt8.ofNat (0x61 + n)]
  [(0, .call (.reserve 17))] ++ List.replicate 16 (0, .append (key 0) 0) ++
    [(0, .call .finalize), (0, .append (key 0) 0), (0, .call .finalize)] ++
    (List.range 15).map fun n => (0, .call (.insert (key (n + 1)) (n + 1)))

/-- The only row with the key `a` has the value 0, but the value that is found is that of the
second row. -/
theorem get?_crossingRun :
    let o := after crossingRun crossingRun.length 0
    (o.rows.filter (·.1.bytes == [0x61])).map (·.2) = [0] ∧ o.get? [0x61] = some 1 ∧
      ¬ FollowsRows o := by
  refine ⟨by decide +kernel, by decide +kernel, fun h => ?_⟩
  have hfound : (after crossingRun crossingRun.length 0).get? [0x61] ≠
      ((after crossingRun crossingRun.length 0).rows.counting? [0x61]).bind fun i =>
        ((after crossingRun crossingRun.length 0).rows[i]?).map (·.2) := by decide +kernel
  exact hfound (h.get? [0x61])

end Object

end JsonTree
