import JsonTree.Proofs.Object.Assoc
import Mathlib.Data.List.Basic

/-!
# What is left when repeated keys are dropped

Dropping repeated keys keeps the rows at certain positions: those of the last rows of their keys.
The two ways of doing it, row by row and with a table, keep the same rows, whatever the size and
whatever index there was before. Afterwards each key is found with the value that was stored last
under it, and dropping repeated keys once more finds nothing to drop.

## Main definitions

- `Rows.LastPositions`: the positions of the last rows of their keys, in rising order.
- `Rows.LastValue`: the value of the last row of a key.

## Main statements

- `Rows.lastPositions_led`: a fresh index leads to the last rows of their keys.
- `Rows.value?_lastOfEach`: what is found among the rows that are kept.
- `Object.finalize_get?`: what is found after repeated keys were dropped.
- `Object.finalize_finalize`, `Object.finalize_eq_self`: dropping repeated keys twice.
- `Object.finalize_keeps_last`: the three together, at every size and with any index.
-/

namespace JsonTree

namespace Rows

variable {σ α : Type} [Readable σ]

/-! ## §1 Positions of last rows -/

/-- The last row of a key has the key, and no row behind it has. -/
theorem last?_eq_some_iff (rows : Rows σ α) (key : Bytes) (i : Nat) :
    rows.last? key = some i ↔
      (∃ row, rows[i]? = some row ∧ row.1.bytes = key) ∧ key ∉ keys (rows.drop (i + 1)) := by
  induction rows generalizing i with
  | nil => simp [last?]
  | cons row rows ih =>
    rw [last?_cons]
    cases i with
    | zero =>
      have hnone := last?_eq_none_iff rows key
      cases hlast : last? key rows with
      | none => simp [hnone.mp hlast]
      | some j =>
        have hmem : key ∈ keys rows := (last?_isSome_iff rows key).mp (by simp [hlast])
        simp [hmem]
    | succ i =>
      rw [List.getElem?_cons_succ, List.drop_succ_cons, ← ih i]
      cases last? key rows with
      | some j => simp
      | none => by_cases hkey : row.1.bytes = key <;> simp [hkey]

/-- Positions, in rising order, of exactly those rows whose key does not come again. -/
structure LastPositions (rows : Rows σ α) (kept : List Nat) : Prop where
  rising : kept.Pairwise (· < ·)
  mem_iff : ∀ i, i ∈ kept ↔
    ∃ row, rows[i]? = some row ∧ row.1.bytes ∉ keys (rows.drop (i + 1))

theorem mem_led_iff (rows : Rows σ α) (row : Held σ × α) (i : Nat) :
    (row, i) ∈ rows.led ↔ rows[i]? = some row ∧ rows.last? row.1.bytes = some i := by
  rw [led, List.mem_filter, List.mem_zipIdx_iff_getElem?, beq_iff_eq]

/-- A fresh index leads to the last rows of their keys. -/
theorem lastPositions_led (rows : Rows σ α) : rows.LastPositions (rows.led.map (·.2)) where
  rising := by
    have hsub : (rows.led.map (·.2)).Sublist (rows.zipIdx.map (·.2)) :=
      List.filter_sublist.map _
    rw [List.zipIdx_map_snd] at hsub
    exact (List.pairwise_lt_range' 1 Nat.one_pos).sublist hsub
  mem_iff i := by
    rw [List.mem_map]
    constructor
    · rintro ⟨⟨row, i⟩, hled, rfl⟩
      obtain ⟨hrow, hlast⟩ := (mem_led_iff rows row i).mp hled
      exact ⟨row, hrow, ((last?_eq_some_iff rows _ i).mp hlast).2⟩
    · rintro ⟨row, hrow, hbehind⟩
      have hlast := (last?_eq_some_iff rows row.1.bytes i).mpr ⟨⟨row, hrow, rfl⟩, hbehind⟩
      exact ⟨(row, i), (mem_led_iff rows row i).mpr ⟨hrow, hlast⟩, rfl⟩

/-- The rows that are kept are those at the positions of last rows. -/
theorem lastOfEach_eq_filterMap (rows : Rows σ α) :
    lastOfEach rows = (rows.led.map (·.2)).filterMap (rows[·]?) := by
  rw [← map_fst_led, List.filterMap_map, eq_comm, List.filterMap_eq_map_iff_forall_eq_some]
  rintro ⟨row, i⟩ hled
  exact ((mem_led_iff rows row i).mp hled).1

/-- The slots of a table that rows were filed in lead to the last rows of their keys. -/
theorem exists_slot_iff {rows : Rows σ α} {kept : List Nat} (h : rows.LastPositions kept)
    {t : Table} (ht : t.Files rows) (i : Nat) :
    (∃ s ∈ t.chain, s.position = i) ↔ i ∈ kept := by
  rw [h.mem_iff, ht.exists_slot_iff]
  refine exists_congr fun row => and_congr_right fun hrow => ?_
  rw [last?_eq_some_iff]
  exact ⟨And.right, fun hbehind => ⟨⟨row, hrow, rfl⟩, hbehind⟩⟩

/-! ## §2 Values of last rows -/

/-- The value of the last row of a key. -/
def LastValue (rows : Rows σ α) (key : Bytes) (value : α) : Prop :=
  ∃ before text after,
    rows = before ++ (text, value) :: after ∧ text.bytes = key ∧ key ∉ keys after

theorem value?_append (rows rows' : Rows σ α) (key : Bytes) :
    value? key (rows ++ rows') = (rows.value? key).or (rows'.value? key) := by
  induction rows with
  | nil => simp [value?]
  | cons row rows ih =>
    rw [List.cons_append, value?, value?, ih]
    split <;> simp

/-- From behind, the row of a key that is met first is the last one. -/
theorem value?_reverse_cons (row : Held σ × α) (rows : Rows σ α) (key : Bytes) :
    value? key (row :: rows).reverse =
      (value? key rows.reverse).or (if row.1.bytes = key then some row.2 else none) := by
  rw [List.reverse_cons, value?_append]
  rfl

theorem value?_reverse_eq_none_iff (rows : Rows σ α) (key : Bytes) :
    value? key rows.reverse = none ↔ key ∉ rows.keys := by
  rw [value?_eq_none_iff, keys, List.map_reverse, List.mem_reverse, keys]

/-- The last row of a key stands in the tail, unless the tail has no row with it. -/
theorem lastValue_cons (row : Held σ × α) (rows : Rows σ α) (key : Bytes) (value : α) :
    LastValue (row :: rows) key value ↔
      rows.LastValue key value ∨ key ∉ rows.keys ∧ row.1.bytes = key ∧ row.2 = value := by
  constructor
  · rintro ⟨before, text, after, heq, hkey, hbehind⟩
    rcases List.cons_eq_append_iff.mp heq with ⟨rfl, hcons⟩ | ⟨before, rfl, rfl⟩
    · obtain ⟨rfl, rfl⟩ := List.cons.inj hcons
      exact .inr ⟨hbehind, hkey, rfl⟩
    · exact .inl ⟨before, text, after, rfl, hkey, hbehind⟩
  · rintro (⟨before, text, after, rfl, hkey, hbehind⟩ | ⟨hbehind, hkey, rfl⟩)
    · exact ⟨row :: before, text, after, rfl, hkey, hbehind⟩
    · exact ⟨[], row.1, rows, rfl, hkey, hbehind⟩

/-- The value that is found from behind is that of the last row of the key. -/
theorem value?_reverse_eq_some_iff (rows : Rows σ α) (key : Bytes) (value : α) :
    value? key rows.reverse = some value ↔ rows.LastValue key value := by
  induction rows with
  | nil => simp [value?, LastValue]
  | cons row rows ih =>
    rw [value?_reverse_cons, Option.or_eq_some_iff, ih, value?_reverse_eq_none_iff, lastValue_cons]
    by_cases hkey : row.1.bytes = key <;> simp [hkey]

/-- What is found among the rows that are kept is what is found among all of them from behind. -/
theorem value?_lastOfEach (rows : Rows σ α) (key : Bytes) :
    value? key (lastOfEach rows) = value? key rows.reverse := by
  induction rows with
  | nil => rfl
  | cons row rows ih =>
    rw [value?_reverse_cons, lastOfEach]
    cases hrepeated : hasKey rows row.1.bytes with
    | true =>
      -- A row that is lost is not the one that is found.
      have hsome : row.1.bytes = key → (value? key rows.reverse).isSome := by
        rintro rfl
        rw [Option.isSome_iff_ne_none, Ne, value?_reverse_eq_none_iff, not_not]
        exact (hasKey_iff rows _).mp hrepeated
      rw [if_pos rfl, ih]
      split
      · rename_i hkey
        rw [Option.or_of_isSome (hsome hkey)]
      · rw [Option.or_none]
    | false =>
      rw [if_neg Bool.false_ne_true, value?, ih]
      split
      · rename_i hkey
        rw [hasKey_eq_false_iff, hkey, ← value?_reverse_eq_none_iff] at hrepeated
        rw [hrepeated, Option.none_or]
      · rw [Option.or_none]

end Rows

namespace Object

variable {σ α : Type} [Readable σ]

/-! ## §3 What is found afterwards -/

/-- A small object is searched row by row, whatever index it has. -/
theorem get?_of_small {o : Object σ α} (h : o.size < indexThreshold) (key : Bytes) :
    o.get? key = o.rows.value? key := by
  rw [Object.get?, position?, if_pos h, Rows.value?_eq_first?]
  cases o.rows.first? key with
  | none => rfl
  | some i => cases hrow : o.rows[i]? <;> simp [hrow]

theorem listed_compact (o : Object σ α) : o.compact.Listed :=
  ⟨o.compact_rows ▸ Rows.keys_lastOfEach_nodup o.rows, fresh_compact o⟩

theorem size_finalize_le (o : Object σ α) : o.finalize.size ≤ o.size := by
  rw [size, finalize_rows]
  exact Rows.length_lastOfEach_le o.rows

/-- An object that is large after repeated keys were dropped was large before. -/
theorem finalize_of_large {o : Object σ α} (h : ¬ o.finalize.size < indexThreshold) :
    o.finalize = o.compact :=
  if_neg fun hsmall => h (Nat.lt_of_le_of_lt o.size_finalize_le hsmall)

/-- After repeated keys were dropped, each key is found with the value that was stored last. -/
theorem finalize_get? (o : Object σ α) (key : Bytes) :
    o.finalize.get? key = Rows.value? key o.rows.reverse := by
  rw [← Rows.value?_lastOfEach, ← finalize_rows]
  -- The size afterwards decides how keys are searched: the object may have become a small one.
  by_cases hsize : o.finalize.size < indexThreshold
  · exact get?_of_small hsize key
  · rw [finalize_of_large hsize]
    exact (listed_compact o).get? key

/-! ## §4 Dropping repeated keys twice -/

/-- Where keys are distinct nothing is moved, and only the index is filed anew. -/
theorem compact_of_distinct {o : Object σ α} (h : o.rows.keys.Nodup) :
    o.compact = { o with index := some o.refiled } := by
  have hall : ¬ o.refiled.chain.length < o.size := by
    rw [o.files_refiled.length_chain, Rows.lastOfEach_eq_self h, size]
    exact Nat.lt_irrefl _
  exact if_neg hall

/-- A small object has nothing left to take out row by row. -/
theorem finalize_eq_self_of_small {o : Object σ α} (h : o.finalize.size < indexThreshold) :
    o.finalize.finalize = o.finalize :=
  (if_pos h).trans (settle_eq_self _ 0 o.finalize_nodup)

theorem finalize_finalize_of_large {o : Object σ α} (h : ¬ o.finalize.size < indexThreshold) :
    o.finalize.finalize = o.compact.compact := by
  rw [← finalize_of_large h]
  exact if_neg h

/-- Once repeated keys were dropped, rows, room and blocks stay as they are. -/
theorem finalize_finalize (o : Object σ α) :
    ∃ index, o.finalize.finalize = { o.finalize with index } := by
  by_cases hsize : o.finalize.size < indexThreshold
  · exact ⟨o.finalize.index, finalize_eq_self_of_small hsize⟩
  · rw [finalize_finalize_of_large hsize, compact_of_distinct (listed_compact o).distinct,
      finalize_of_large hsize]
    exact ⟨_, rfl⟩

/-- Filing rows anew changes nothing in a table that was made of them with a bucket for each. -/
theorem refiled_eq_self {o : Object σ α} {buckets : Nat} (henough : o.size ≤ buckets)
    (h : o.index = some (.ofRows buckets o.rows o.blocks)) : some o.refiled = o.index := by
  rw [h, refiled, h, Option.elim_some, Table.buckets_ofRows henough]

theorem refiled_of_none {o : Object σ α} (h : o.index = none) :
    o.refiled = .ofRows (bucketsFor (2 * o.size)) o.rows o.blocks := by
  rw [refiled, h, Option.elim_none]

theorem le_bucketsFor_double (n : Nat) : n ≤ bucketsFor (2 * n) :=
  Nat.le_trans (Nat.le_mul_of_pos_left _ Nat.two_pos) (Table.le_bucketsFor _)

/-- The index that is left was made of the rows that are left, with a bucket for each: a new one is
made with enough of them, and one that was there had a bucket for each key. -/
theorem exists_index_compact {o : Object σ α} (h : o.Fresh) :
    ∃ buckets, o.compact.size ≤ buckets ∧
      o.compact.index = some (.ofRows buckets o.compact.rows o.compact.blocks) := by
  rw [compact]
  dsimp only
  split
  · have hnone := sweep_index_none (o := { o with index := none }) rfl (o.refiled.marks o.size) 0 0
    exact ⟨_, le_bucketsFor_double _, congrArg some (refiled_of_none hnone)⟩
  · rename_i hall
    -- No row was lost, so there is a slot for each row.
    rw [o.files_refiled.length_chain, Nat.not_lt] at hall
    cases hindex : o.index with
    | none => exact ⟨_, le_bucketsFor_double _, congrArg some (refiled_of_none hindex)⟩
    | some t =>
      have ht := h t hindex
      refine ⟨t.buckets, ?_, by simp only [refiled, hindex, Option.elim_some]⟩
      exact Nat.le_trans hall (ht.length_chain ▸ ht.fits)

theorem compact_compact {o : Object σ α} (h : o.Fresh) : o.compact.compact = o.compact := by
  obtain ⟨buckets, henough, hindex⟩ := exists_index_compact h
  rw [compact_of_distinct (listed_compact o).distinct, refiled_eq_self henough hindex]

/-- Dropping repeated keys a second time changes nothing at all, the index included, unless a large
object had an index that was out of step. -/
theorem finalize_eq_self {o : Object σ α} (h : o.size < indexThreshold ∨ o.Fresh) :
    o.finalize.finalize = o.finalize := by
  by_cases hsize : o.finalize.size < indexThreshold
  · exact finalize_eq_self_of_small hsize
  · have hfresh : o.Fresh := h.resolve_left fun hsmall =>
      hsize (Nat.lt_of_le_of_lt o.size_finalize_le hsmall)
    rw [finalize_finalize_of_large hsize, finalize_of_large hsize]
    exact compact_compact hfresh

/-- Dropping repeated keys leaves exactly the last rows of their keys, in their order. Row by row
and with a table the same rows are left, at every size; the slots of the table, whatever its
buckets and wherever the keys lie, lead to just those rows. Afterwards a key is found with the value
that was stored last under it, and no other keys are found. Dropping repeated keys once more leaves
rows, room and blocks alone, and what is found; the index stays the same as well, unless the object
was large and its index out of step to begin with. -/
theorem finalize_keeps_last (o : Object σ α) :
    (∃ kept, o.rows.LastPositions kept ∧
      o.finalize.rows = kept.filterMap (o.rows[·]?) ∧
      ∀ buckets blocks i,
        (∃ s ∈ (Table.ofRows buckets o.rows blocks).chain, s.position = i) ↔ i ∈ kept) ∧
    (settle o.size 0 o).rows = o.finalize.rows ∧
    o.compact.rows = o.finalize.rows ∧
    (∀ key value, o.finalize.get? key = some value ↔ o.rows.LastValue key value) ∧
    (∀ key, o.finalize.get? key = none ↔ key ∉ o.rows.keys) ∧
    (∃ index, o.finalize.finalize = { o.finalize with index }) ∧
    (∀ key, o.finalize.finalize.get? key = o.finalize.get? key) ∧
    (o.size < indexThreshold ∨ o.Fresh → o.finalize.finalize = o.finalize) := by
  refine ⟨⟨o.rows.led.map (·.2), Rows.lastPositions_led o.rows, ?rows, ?slots⟩, ?settle, ?compact,
    ?found, ?missing, finalize_finalize o, ?again, finalize_eq_self⟩
  case rows => rw [finalize_rows, Rows.lastOfEach_eq_filterMap]
  case slots =>
    exact fun buckets blocks =>
      Rows.exists_slot_iff (Rows.lastPositions_led o.rows)
        (Table.files_ofRows buckets o.rows blocks)
  case settle =>
    rw [finalize_rows, settle_rows o.size 0 o (Nat.zero_add _).symm, List.take_zero,
      List.nil_append, List.drop_zero]
  case compact => rw [finalize_rows, compact_rows]
  case found =>
    intro key value
    rw [finalize_get?, Rows.value?_reverse_eq_some_iff]
  case missing =>
    intro key
    rw [finalize_get?, Rows.value?_reverse_eq_none_iff]
  case again =>
    -- The rows that are left have distinct keys, so each is the last one of its key.
    intro key
    rw [finalize_get?, finalize_get?, finalize_rows, ← Rows.value?_lastOfEach,
      ← Rows.value?_lastOfEach,
      Rows.lastOfEach_eq_self (Rows.keys_lastOfEach_nodup o.rows)]

/-- Seventeen rows with three keys, which a lookup has made an index for. -/
def crowded : Object Bytes Nat :=
  let key (i : Nat) : Text := .owned [UInt8.ofNat (0x61 + i % 3)]
  ((List.range 17).foldl (fun o i => o.append (key i) i) empty).indexed

/-- The large object `crowded` becomes a small one, of its rows 14 to 16. -/
theorem finalize_keeps_last_crowded :
    indexThreshold ≤ crowded.size ∧
      crowded.finalize.rows = [(.owned [0x63], 14), (.owned [0x61], 15), (.owned [0x62], 16)] ∧
      crowded.finalize.get? [0x61] = some 15 ∧ crowded.finalize.get? [0x64] = none ∧
      crowded.finalize.finalize = crowded.finalize := by
  obtain ⟨-, -, -, hfound, hmissing, -, -, hagain⟩ := finalize_keeps_last crowded
  have hlast : crowded.rows.LastValue [0x61] 15 :=
    ⟨crowded.rows.take 15, .owned [0x61], crowded.rows.drop 16, by decide +kernel, rfl,
      by decide +kernel⟩
  have hother : [0x64] ∉ crowded.rows.keys := by decide +kernel
  have hfresh : crowded.Fresh := Fresh.indexed (fresh_of_none (by decide +kernel))
  exact ⟨by decide +kernel, by decide +kernel, (hfound _ _).mpr hlast, (hmissing _).mpr hother,
    hagain (.inr hfresh)⟩

end Object

end JsonTree
