import JsonTree.Proofs.Object.Run

/-!
# Objects as association lists

As long as rows are stored by `insert` alone, an object is an association list: keys are distinct,
in the order in which they were first stored, and neither the size nor the index can be seen. The
list model knows rows only. Every call on a store of objects answers what it answers on the store
of their rows, and leaves the rows that it leaves there; this carries over to runs of any length.

## Main definitions

- `Rows.put`, `Rows.take?`, `Rows.value?`, `Rows.setValue`: the operations of an association list.
- `Object.Call.runRows`, `Object.runRows`: a call and a run on a store of rows.

## Main statements

- `Object.call_eq_runRows`: one call on objects with distinct keys.
- `Object.calls_eq_runRows`: runs that start from empty and from collected objects.
-/

namespace JsonTree

/-! ## §1 Association lists -/

namespace Rows

variable {σ α : Type} [Readable σ]

/-- The value under a key. -/
def value? (key : Bytes) : Rows σ α → Option α
  | [] => none
  | row :: rows => if row.1.bytes = key then some row.2 else value? key rows

/-- Store a value under a key. A key that is there stays where and as it is, and the value that it
had is told; another one comes to the end. -/
def put (key : Held σ) (value : α) : Rows σ α → Option α × Rows σ α
  | [] => (none, [(key, value)])
  | row :: rows =>
    if row.1.bytes = key.bytes then (some row.2, (row.1, value) :: rows)
    else
      let (old, rows) := put key value rows
      (old, row :: rows)

/-- Take out the row of a key, and tell its value. -/
def take? (key : Bytes) : Rows σ α → Option α × Rows σ α
  | [] => (none, [])
  | row :: rows =>
    if row.1.bytes = key then (some row.2, rows)
    else
      let (old, rows) := take? key rows
      (old, row :: rows)

/-- Change the value under a key, if the key is there. -/
def setValue (key : Bytes) (value : α) : Rows σ α → Rows σ α
  | [] => []
  | row :: rows =>
    if row.1.bytes = key then (row.1, value) :: rows else row :: setValue key value rows

theorem value?_eq_first? (rows : Rows σ α) (key : Bytes) :
    rows.value? key = (rows.first? key).bind fun i => (rows[i]?).map (·.2) := by
  induction rows with
  | nil => rfl
  | cons row rows ih =>
    rw [value?, first?_cons]
    by_cases hkey : row.1.bytes = key
    · simp [hkey]
    · rw [if_neg hkey, if_neg hkey, ih]
      cases first? rows key <;> simp

theorem value?_eq_none_iff (rows : Rows σ α) (key : Bytes) :
    rows.value? key = none ↔ key ∉ rows.keys := by
  induction rows with
  | nil => simp [value?]
  | cons row rows ih =>
    rw [value?, keys_cons, List.mem_cons, not_or, ← ih]
    by_cases hkey : row.1.bytes = key
    · simp [hkey]
    · simp [hkey, Ne.symm hkey]

theorem exists_mem_of_value? {rows : Rows σ α} {key : Bytes} {value : α}
    (h : rows.value? key = some value) : ∃ row ∈ rows, row.1.bytes = key ∧ row.2 = value := by
  induction rows with
  | nil => cases h
  | cons row rows ih =>
    rw [value?] at h
    by_cases hkey : row.1.bytes = key
    · rw [if_pos hkey] at h
      exact ⟨row, List.mem_cons_self, hkey, Option.some.inj h⟩
    · rw [if_neg hkey] at h
      obtain ⟨row', hmem, hrow'⟩ := ih h
      exact ⟨row', List.mem_cons_of_mem _ hmem, hrow'⟩

/-- Where keys do not repeat, a row is found under its key. -/
theorem value?_of_mem {rows : Rows σ α} (hdistinct : rows.keys.Nodup) {row : Held σ × α}
    (hmem : row ∈ rows) : rows.value? row.1.bytes = some row.2 := by
  induction rows with
  | nil => cases hmem
  | cons first rows ih =>
    rw [keys_cons, List.nodup_cons] at hdistinct
    rw [value?]
    rcases List.mem_cons.mp hmem with rfl | hmem
    · rw [if_pos rfl]
    -- The first row has another key, because the keys are pairwise distinct.
    · have hother : first.1.bytes ≠ row.1.bytes := by
        intro heq
        exact hdistinct.1 (heq ▸ List.mem_map_of_mem hmem)
      rw [if_neg hother]
      exact ih hdistinct.2 hmem

theorem put_eq_first? (rows : Rows σ α) (key : Held σ) (value : α) :
    rows.put key value =
      match rows.first? key.bytes with
      | some i => ((rows[i]?).map (·.2), rows.modify i fun row => (row.1, value))
      | none => (none, rows ++ [(key, value)]) := by
  induction rows with
  | nil => rfl
  | cons row rows ih =>
    rw [put, first?_cons]
    by_cases hkey : row.1.bytes = key.bytes
    · simp [hkey]
    · rw [if_neg hkey, if_neg hkey, ih]
      cases first? rows key.bytes <;> simp

theorem take?_eq_first? (rows : Rows σ α) (key : Bytes) :
    rows.take? key =
      match rows.first? key with
      | some i => ((rows[i]?).map (·.2), rows.eraseIdx i)
      | none => (none, rows) := by
  induction rows with
  | nil => rfl
  | cons row rows ih =>
    rw [take?, first?_cons]
    by_cases hkey : row.1.bytes = key
    · simp [hkey]
    · rw [if_neg hkey, if_neg hkey, ih]
      cases first? rows key <;> simp

theorem setValue_eq_first? (rows : Rows σ α) (key : Bytes) (value : α) :
    rows.setValue key value =
      match rows.first? key with
      | some i => rows.modify i fun row => (row.1, value)
      | none => rows := by
  induction rows with
  | nil => rfl
  | cons row rows ih =>
    rw [setValue, first?_cons]
    by_cases hkey : row.1.bytes = key
    · simp [hkey]
    · rw [if_neg hkey, if_neg hkey, ih]
      cases first? rows key <;> simp

/-- What was stored last under a key is found under it, and nothing changes for other keys. -/
theorem value?_put (rows : Rows σ α) (key : Held σ) (value : α) (key' : Bytes) :
    (rows.put key value).2.value? key' =
      if key' = key.bytes then some value else rows.value? key' := by
  induction rows with
  | nil => simp [put, value?, eq_comm]
  | cons row rows ih =>
    rw [put]
    by_cases hkey : row.1.bytes = key.bytes
    · rw [if_pos hkey, value?, value?, hkey]
      by_cases hkey' : key' = key.bytes
      · simp [hkey']
      · simp [hkey', Ne.symm hkey']
    · rw [if_neg hkey]
      simp only [value?, ih]
      by_cases hkey' : key' = key.bytes
      · simp [hkey', hkey]
      · simp [hkey']

/-- Where keys do not repeat, the row that counts is the only one with its key, whatever the
size. -/
theorem counting?_eq_first? {rows : Rows σ α} (hdistinct : rows.keys.Nodup) (key : Bytes) :
    rows.counting? key = rows.first? key := by
  rw [counting?, last?_eq_first? hdistinct key, ite_self]

theorem keys_modify (rows : Rows σ α) (i : Nat) (f : α → α) :
    keys (rows.modify i fun row => (row.1, f row.2)) = rows.keys :=
  map_modify_eq (fun row : Held σ × α => (row.1, f row.2)) _ (fun _ => rfl) rows i

theorem put_nodup {rows : Rows σ α} (hdistinct : rows.keys.Nodup) (key : Held σ) (value : α) :
    (rows.put key value).2.keys.Nodup := by
  rw [put_eq_first?]
  cases hfirst : rows.first? key.bytes with
  | some i => exact (keys_modify rows i fun _ => value) ▸ hdistinct
  | none =>
    -- The row comes to the end because its key is new.
    have hfresh : key.bytes ∉ rows.keys := by
      rw [← first?_isSome_iff, hfirst]
      simp
    rw [keys_append, List.nodup_append]
    refine ⟨hdistinct, by simp, ?_⟩
    rintro k hk k' hk' rfl
    obtain rfl : k = key.bytes := by simpa using hk'
    exact hfresh hk

theorem take?_nodup {rows : Rows σ α} (hdistinct : rows.keys.Nodup) (key : Bytes) :
    (rows.take? key).2.keys.Nodup := by
  rw [take?_eq_first?]
  cases rows.first? key with
  | some i => exact hdistinct.sublist ((List.eraseIdx_sublist rows i).map _)
  | none => exact hdistinct

theorem setValue_nodup {rows : Rows σ α} (hdistinct : rows.keys.Nodup) (key : Bytes) (value : α) :
    (rows.setValue key value).keys.Nodup := by
  rw [setValue_eq_first?]
  cases rows.first? key with
  | some i => exact (keys_modify rows i fun _ => value) ▸ hdistinct
  | none => exact hdistinct

end Rows

namespace Object

variable {σ α : Type} [Readable σ]

/-! ## §2 Calls on association lists -/

/-- Carry out a call on an association list of a store. -/
def Call.runRows (s : Nat → Rows σ α) (i : Nat) : Call σ α → Answer α × (Nat → Rows σ α)
  | .insert key value =>
    let (old, rows) := (s i).put key value
    (.value old, Function.update s i rows)
  | .remove key =>
    let (old, rows) := (s i).take? key
    (.value old, Function.update s i rows)
  | .find key => (.value ((s i).value? key), s)
  | .contains key => (.found ((s i).value? key).isSome, s)
  | .store key value =>
    (.found ((s i).value? key).isSome, Function.update s i ((s i).setValue key value))
  | .finalize | .reserve _ => (.done, s)
  | .clear => (.done, Function.update s i [])
  | .copy source | .assign source => (.done, Function.update s i (s source))
  | .move source =>
    (.done,
      if source = i then s else Function.update (Function.update s i (s source)) source [])

/-- Carry out calls in order. -/
def runRows (s : Nat → Rows σ α) : List (Nat × Call σ α) → List (Answer α) × (Nat → Rows σ α)
  | [] => ([], s)
  | (i, c) :: calls =>
    let (answer, s) := c.runRows s i
    let (answers, s) := runRows s calls
    (answer :: answers, s)

/-- The rows of each object of a store. -/
def Store.rows (s : Store σ α) : Nat → Rows σ α := fun i => (s i).rows

/-- An object that is an association list: its keys are distinct, and its index is in step. -/
structure Listed (o : Object σ α) : Prop where
  distinct : o.rows.keys.Nodup
  fresh : o.Fresh

theorem Listed.counting? {o : Object σ α} (h : o.Listed) (key : Bytes) :
    o.position? key = o.rows.first? key := by
  rw [h.fresh.position?, Rows.counting?_eq_first? h.distinct]

theorem Listed.get? {o : Object σ α} (h : o.Listed) (key : Bytes) :
    o.get? key = o.rows.value? key := by
  rw [h.fresh.followsRows.get?, Rows.counting?_eq_first? h.distinct,
    Rows.value?_eq_first?]

theorem Listed.contains {o : Object σ α} (h : o.Listed) (key : Bytes) :
    o.contains key = (o.rows.value? key).isSome := by
  rw [Object.contains, h.counting?, Rows.value?_eq_first?]
  cases hfirst : o.rows.first? key with
  | none => rfl
  | some i =>
    obtain ⟨row, hrow, -⟩ := Rows.getElem?_of_first? hfirst
    simp [hrow]

theorem Listed.insert {o : Object σ α} (h : o.Listed) (key : Held σ) (value : α) :
    ((o.insert key value).1, (o.insert key value).2.rows) = o.rows.put key value ∧
      (o.insert key value).2.Listed := by
  have heq : ((o.insert key value).1, (o.insert key value).2.rows) = o.rows.put key value := by
    cases hfirst : o.rows.first? key.bytes <;>
      rw [h.fresh.followsRows.insert, Rows.counting?_eq_first? h.distinct,
        Rows.put_eq_first?, hfirst]
  have hrows : (o.insert key value).2.rows = (o.rows.put key value).2 := congrArg Prod.snd heq
  exact ⟨heq, hrows ▸ Rows.put_nodup h.distinct key value, h.fresh.insert key value⟩

theorem Listed.remove {o : Object σ α} (h : o.Listed) (key : Bytes) :
    ((o.remove key).1, (o.remove key).2.rows) = o.rows.take? key ∧ (o.remove key).2.Listed := by
  have heq : ((o.remove key).1, (o.remove key).2.rows) = o.rows.take? key := by
    cases hfirst : o.rows.first? key <;>
      rw [h.fresh.followsRows.remove, Rows.counting?_eq_first? h.distinct,
        Rows.take?_eq_first?, hfirst]
  have hrows : (o.remove key).2.rows = (o.rows.take? key).2 := congrArg Prod.snd heq
  exact ⟨heq, hrows ▸ Rows.take?_nodup h.distinct key, h.fresh.remove key⟩

theorem Listed.indexed {o : Object σ α} (h : o.Listed) : o.indexed.Listed :=
  ⟨o.indexed_rows ▸ h.distinct, h.fresh.indexed⟩

theorem Listed.setValue {o : Object σ α} (h : o.Listed) (key : Bytes) (value : α) :
    (o.modify key fun _ => value).rows = o.rows.setValue key value ∧
      (o.modify key fun _ => value).Listed := by
  have heq : (o.modify key fun _ => value).rows = o.rows.setValue key value := by
    cases hfirst : o.rows.first? key <;>
      rw [h.fresh.followsRows.modify, Rows.counting?_eq_first? h.distinct,
        Rows.setValue_eq_first?, hfirst]
  exact ⟨heq, heq ▸ Rows.setValue_nodup h.distinct key value, h.fresh.modify key _⟩

/-- Where keys are distinct there is nothing to drop. -/
theorem Listed.finalize {o : Object σ α} (h : o.Listed) :
    o.finalize.rows = o.rows ∧ o.finalize.Listed := by
  have heq : o.finalize.rows = o.rows := by rw [finalize_rows, Rows.lastOfEach_eq_self h.distinct]
  exact ⟨heq, heq ▸ h.distinct, h.fresh.finalize fun hsettles => hsettles.2.2 h.distinct⟩

theorem listed_of_none {o : Object σ α} (hdistinct : o.rows.keys.Nodup) (h : o.index = none) :
    o.Listed := ⟨hdistinct, fresh_of_none h⟩

theorem Listed.assign {source : Object σ α} (h : source.Listed) (o : Object σ α) :
    (o.assign source).rows = source.rows ∧ (o.assign source).Listed := by
  have heq : (o.assign source).rows = source.rows := by
    rw [Object.assign]
    split <;> rfl
  exact ⟨heq, heq ▸ h.distinct, Fresh.assign o source⟩

/-! ## §3 One call -/

omit [Readable σ] in
theorem rows_update (s : Store σ α) (i : Nat) (o : Object σ α) :
    Store.rows (Function.update s i o) = Function.update s.rows i o.rows := by
  funext j
  by_cases hj : j = i
  · rw [hj, Store.rows, Function.update_self, Function.update_self]
  · rw [Store.rows, Function.update_of_ne hj, Function.update_of_ne hj]
    rfl

omit [Readable σ] in
theorem rows_update_self {s : Store σ α} {i : Nat} {o : Object σ α} (h : o.rows = (s i).rows) :
    Store.rows (Function.update s i o) = s.rows := by
  rw [rows_update, h]
  exact Function.update_eq_self i s.rows

theorem listed_update {s : Store σ α} (hs : ∀ j, (s j).Listed) (i : Nat) {o : Object σ α}
    (h : o.Listed) (j : Nat) : (Function.update s i o j).Listed :=
  (Function.forall_update_iff s fun _ o => o.Listed).mpr ⟨h, fun j _ => hs j⟩ j

/-- A call answers and stores what it answers and stores on the rows alone, and leaves association
lists. -/
theorem call_eq_runRows {s : Store σ α} (hs : ∀ j, (s j).Listed) (i : Nat) (c : Call σ α) :
    ((c.run s i).1, Store.rows (c.run s i).2) = c.runRows s.rows i ∧
      ∀ j, ((c.run s i).2 j).Listed := by
  cases c with
  | insert key value =>
    obtain ⟨heq, hlisted⟩ := (hs i).insert key value
    refine ⟨?_, listed_update hs i hlisted⟩
    simp only [Call.run, Call.runRows, rows_update, Store.rows, ← heq]
  | remove key =>
    obtain ⟨heq, hlisted⟩ := (hs i).remove key
    refine ⟨?_, listed_update hs i hlisted⟩
    simp only [Call.run, Call.runRows, rows_update, Store.rows, ← heq]
  | find key =>
    refine ⟨?_, listed_update hs i (hs i).indexed⟩
    rw [Call.run, Call.runRows, rows_update_self (indexed_rows _), (hs i).get?]
    rfl
  | contains key =>
    refine ⟨?_, listed_update hs i (hs i).indexed⟩
    rw [Call.run, Call.runRows, rows_update_self (indexed_rows _), (hs i).contains]
    rfl
  | store key value =>
    obtain ⟨heq, hlisted⟩ := (hs i).indexed.setValue key value
    refine ⟨?_, listed_update hs i hlisted⟩
    rw [Call.run, Call.runRows, rows_update, heq, indexed_rows, (hs i).contains]
    rfl
  | finalize =>
    obtain ⟨heq, hlisted⟩ := (hs i).finalize
    refine ⟨?_, listed_update hs i hlisted⟩
    rw [Call.run, Call.runRows, rows_update_self heq]
  | clear =>
    refine ⟨?_, listed_update hs i (listed_of_none List.nodup_nil rfl)⟩
    rw [Call.run, Call.runRows, rows_update]
    rfl
  | reserve n =>
    have hdistinct := (reserve_rows (s i) n).symm ▸ (hs i).distinct
    refine ⟨?_, listed_update hs i ⟨hdistinct, (hs i).fresh.reserve n⟩⟩
    rw [Call.run, Call.runRows, rows_update_self (reserve_rows _ n)]
  | copy source =>
    refine ⟨?_, listed_update hs i (listed_of_none (hs source).distinct rfl)⟩
    rw [Call.run, Call.runRows, rows_update]
    rfl
  | assign source =>
    obtain ⟨heq, hlisted⟩ := (hs source).assign (s i)
    rw [Call.run, Call.runRows]
    by_cases hself : source = i
    · subst hself
      rw [if_pos rfl]
      exact ⟨by rw [Function.update_eq_self], hs⟩
    · rw [if_neg hself, rows_update, heq]
      exact ⟨rfl, listed_update hs i hlisted⟩
  | move source =>
    rw [Call.run, Call.runRows]
    dsimp only [handOver]
    by_cases hself : source = i
    · rw [if_pos hself, if_pos hself]
      exact ⟨rfl, hs⟩
    · rw [if_neg hself, if_neg hself, rows_update, rows_update]
      exact ⟨rfl, listed_update (listed_update hs i (hs source)) source
        (listed_of_none List.nodup_nil rfl)⟩

/-! ## §4 Runs -/

theorem listed_empty : (empty : Object σ α).Listed := listed_of_none List.nodup_nil rfl

theorem append_index_none {o : Object σ α} (h : o.index = none) (key : Held σ) (value : α) :
    (o.append key value).index = none := by
  rw [append]
  split <;> simp [relocated, h]

/-- Appending to an object without an index makes none. -/
theorem foldl_append_index_none (rows : Rows σ α) {o : Object σ α} (h : o.index = none) :
    (rows.foldl (fun o row => o.append row.1 row.2) o).index = none := by
  induction rows generalizing o with
  | nil => exact h
  | cons row rows ih => exact ih (append_index_none h row.1 row.2)

theorem reserve_index_none {o : Object σ α} (h : o.index = none) (n : Nat) :
    (o.reserve n).index = none := by
  rw [reserve]
  split
  · simp [relocated, h]
  · exact h

/-- Dropping repeated keys from rows that no index was made for leaves an association list. -/
theorem listed_finalize {o : Object σ α} (h : o.index = none) : o.finalize.Listed :=
  ⟨o.finalize_nodup, (fresh_of_none h).finalize fun hsettles => hsettles.2.1 h⟩

/-- A collected object is an association list, whatever was appended to it. -/
theorem listed_collect (rows : Rows σ α) : (collect rows).Listed :=
  listed_finalize (foldl_append_index_none rows (reserve_index_none rfl rows.length))

/-- Carry out calls in order, each on the object that stands before it. -/
def runCalls (s : Store σ α) (calls : List (Nat × Call σ α)) : List (Answer α) × Store σ α :=
  run s (calls.map fun (i, c) => (i, .call c))

theorem runCalls_eq_runRows {s : Store σ α} (hs : ∀ j, (s j).Listed)
    (calls : List (Nat × Call σ α)) :
    ((runCalls s calls).1, Store.rows (runCalls s calls).2) = runRows s.rows calls ∧
      ∀ j, ((runCalls s calls).2 j).Listed := by
  induction calls generalizing s with
  | nil => exact ⟨rfl, hs⟩
  | cons call calls ih =>
    obtain ⟨i, c⟩ := call
    obtain ⟨hcall, hlisted⟩ := call_eq_runRows hs i c
    obtain ⟨hcalls, hall⟩ := ih hlisted
    refine ⟨?_, hall⟩
    rw [runRows, ← hcall]
    dsimp only
    rw [← hcalls]
    rfl

/-- Objects that start out empty or collected behave like association lists: every run of calls
answers what the list model answers, leaves the rows that it leaves, and keys stay distinct. -/
theorem calls_eq_runRows {s : Store σ α} (hs : ∀ i, s i = .empty ∨ ∃ rows, s i = .collect rows)
    (calls : List (Nat × Call σ α)) :
    (runCalls s calls).1 = (runRows s.rows calls).1 ∧
      Store.rows (runCalls s calls).2 = (runRows s.rows calls).2 ∧
      ∀ i, ((runCalls s calls).2 i).rows.keys.Nodup := by
  -- Both ways to begin give association lists, and calls keep them so.
  have hlisted : ∀ i, (s i).Listed := by
    intro i
    rcases hs i with hempty | ⟨rows, hcollect⟩
    · exact hempty ▸ listed_empty
    · exact hcollect ▸ listed_collect rows
  obtain ⟨heq, hall⟩ := runCalls_eq_runRows hlisted calls
  exact ⟨congrArg Prod.fst heq, congrArg Prod.snd heq, fun i => (hall i).distinct⟩

/-- An object that seventeen rows of one key were collapsed to, and that grows to sixteen rows,
shrinks by one and grows again. -/
theorem calls_eq_runRows_collapsed :
    let key (n : Nat) : Bytes := [UInt8.ofNat (0x61 + n)]
    let s : Store Bytes Nat :=
      Function.update Store.empty 0 (.collect (List.replicate 17 (.owned (key 0), 0)))
    let calls : List (Nat × Call Bytes Nat) :=
      (List.range 16).map (fun n => (0, .insert (.owned (key n)) (n + 1))) ++
        [(0, .find (key 0)), (0, .remove (key 3)), (0, .finalize), (1, .copy 0),
          (1, .insert (.owned (key 3)) 0), (1, .find (key 3)), (0, .contains (key 3))]
    (∀ i, s i = .empty ∨ ∃ rows, s i = .collect rows) ∧
      (runCalls s calls).1 = (runRows s.rows calls).1 ∧
      Store.rows (runCalls s calls).2 = (runRows s.rows calls).2 ∧
      ∀ i, ((runCalls s calls).2 i).rows.keys.Nodup := by
  intro key s calls
  have hs : ∀ i, s i = .empty ∨ ∃ rows, s i = .collect rows := by
    intro i
    by_cases hi : i = 0
    · subst hi
      exact .inr ⟨_, Function.update_self ..⟩
    · exact .inl (Function.update_of_ne hi ..)
  exact ⟨hs, calls_eq_runRows hs calls⟩

end Object

end JsonTree
