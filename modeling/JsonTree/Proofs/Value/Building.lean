import JsonTree.Proofs.Live.Equality
import JsonTree.Proofs.Object.LastRows
import JsonTree.Shape.Encode
import Mathlib.Data.List.Dedup
import Mathlib.Data.List.Induction

/-!
# Two ways to build an object

Rows that may repeat keys become an object in one of two ways. Encoding stores them one by one, and
a key that is there already takes the new value. Decoding adds them all unchecked and drops repeated
keys afterwards. Both give the same finite map, whatever keys repeat and whichever ways of looking
up and of dropping are taken on the way. They differ in the order of the rows: a key stands where it
came first, or where it came last. As objects they are equal, unless a value among the rows holds an
object whose index is stale.

## Main definitions

- `Rows.putAll`: rows stored one by one in an association list.
- `Object.insertAll`, `Object.appendAll`: rows stored in an object, checked and unchecked.
- `Live.SameRow`: rows that say the same, such as a row and a copy of it.

## Main statements

- `Rows.value?_putAll`, `Rows.keys_putAll`: what storing one by one leaves.
- `Object.Listed.insertAll`: storing in an object is storing in its rows.
- `Object.build_agree`: both ways give the same finite map.
- `Object.build_agree_staled`: a value with a stale index makes them differ in one direction.
- `Shape.encodeFields_eq_ok_iff`: encoding stores one by one.
-/

namespace JsonTree

/-! ## §1 Association lists -/

namespace Rows

variable {σ α : Type} [Readable σ]

/-- Store rows one by one in an association list. -/
def putAll (kept rows : Rows σ α) : Rows σ α :=
  rows.foldl (fun kept row => (kept.put row.1 row.2).2) kept

theorem putAll_append_singleton (kept rows : Rows σ α) (row : Held σ × α) :
    putAll kept (rows ++ [row]) = ((putAll kept rows).put row.1 row.2).2 := by
  rw [putAll, List.foldl_append]
  rfl

/-- A key that is there already keeps its place, and another one comes to the end. -/
theorem keys_put (rows : Rows σ α) (key : Held σ) (value : α) :
    keys (rows.put key value).2 =
      if key.bytes ∈ rows.keys then rows.keys else rows.keys ++ [key.bytes] := by
  rw [put_eq_first?]
  cases hfirst : rows.first? key.bytes with
  | some i =>
    have hmem : key.bytes ∈ rows.keys := (first?_isSome_iff rows _).mp (by rw [hfirst]; rfl)
    rw [if_pos hmem]
    exact keys_modify rows i fun _ => value
  | none =>
    have hfresh : key.bytes ∉ rows.keys := by
      rw [← first?_isSome_iff, hfirst]
      exact Bool.false_ne_true
    rw [if_neg hfresh]
    exact keys_append rows [(key, value)]

/-- Under each key stands the value that was stored last. -/
theorem value?_putAll (rows : Rows σ α) (key : Bytes) :
    value? key (putAll [] rows) = value? key rows.reverse := by
  induction rows using List.reverseRecOn with
  | nil => rfl
  | append_singleton rows row ih =>
    rw [putAll_append_singleton, value?_put, ih, List.reverse_append, List.reverse_singleton,
      List.singleton_append, value?]
    simp only [eq_comm]

/-- Keys stand in the order in which they were first stored. -/
theorem keys_putAll (rows : Rows σ α) : keys (putAll [] rows) = rows.keys.eraseDups := by
  induction rows using List.reverseRecOn with
  | nil => rfl
  | append_singleton rows row ih =>
    rw [putAll_append_singleton, keys_put, ih, keys_append, List.eraseDups_append]
    by_cases hmem : row.1.bytes ∈ keys rows
    · simp [hmem, List.removeAll]
    · simp [hmem, List.removeAll, List.eraseDups_cons]

/-- Where only the last row of each key is kept, keys stand in the order in which they were last
stored. -/
theorem keys_lastOfEach (rows : Rows σ α) : keys (lastOfEach rows) = rows.keys.dedup := by
  induction rows with
  | nil => rfl
  | cons row rows ih =>
    rw [lastOfEach, keys_cons]
    cases hrepeated : hasKey rows row.1.bytes with
    | true =>
      rw [if_pos rfl, ih, List.dedup_cons_of_mem ((hasKey_iff rows _).mp hrepeated)]
    | false =>
      rw [if_neg Bool.false_ne_true, keys_cons, ih,
        List.dedup_cons_of_notMem ((hasKey_eq_false_iff rows _).mp hrepeated)]

end Rows

/-! ## §2 Objects -/

namespace Object

variable {σ α : Type} [Readable σ]

/-- Store rows in an object, in order. -/
def insertAll (o : Object σ α) (rows : Rows σ α) : Object σ α :=
  rows.foldl (fun o row => (o.insert row.1 row.2).2) o

/-- Add rows at the end of an object, in order, whether or not their keys are there already. -/
def appendAll (o : Object σ α) (rows : Rows σ α) : Object σ α :=
  rows.foldl (fun o row => o.append row.1 row.2) o

/-- Storing rows in an association list is storing them in its rows. -/
theorem Listed.insertAll {o : Object σ α} (h : o.Listed) (rows : Rows σ α) :
    (o.insertAll rows).rows = o.rows.putAll rows ∧ (o.insertAll rows).Listed := by
  induction rows generalizing o with
  | nil => exact ⟨rfl, h⟩
  | cons row rows ih =>
    obtain ⟨hput, hlisted⟩ := h.insert row.1 row.2
    obtain ⟨hrows, hall⟩ := ih hlisted
    refine ⟨hrows.trans ?_, hall⟩
    exact congrArg (Rows.putAll · rows) (congrArg Prod.snd hput)

theorem forall_insertAll {P : α → Prop} {o : Object σ α} {rows : Rows σ α}
    (ho : ∀ row ∈ o.rows, P row.2) (hrows : ∀ row ∈ rows, P row.2) :
    ∀ row ∈ (o.insertAll rows).rows, P row.2 := by
  induction rows generalizing o with
  | nil => exact ho
  | cons row rows ih =>
    obtain ⟨hrow, hrows⟩ := List.forall_mem_cons.mp hrows
    exact ih (forall_insert ho row.1 hrow).2 hrows

theorem Listed.contains_iff {o : Object σ α} (h : o.Listed) (key : Bytes) :
    o.contains key = true ↔ key ∈ o.rows.keys :=
  h.fresh.followsRows.contains key

/-- The two objects that the same rows become: stored one by one, and added unchecked. -/
theorem listed_insertAll (rows : Rows σ α) (m : Nat) :
    ((empty.reserve m).insertAll rows).rows = Rows.putAll [] rows ∧
      ((empty.reserve m).insertAll rows).Listed := by
  have hlisted : ((empty : Object σ α).reserve m).Listed := by
    refine listed_of_none ?_ (reserve_index_none rfl m)
    rw [reserve_rows]
    exact List.nodup_nil
  have hinsert := hlisted.insertAll rows
  rwa [reserve_rows] at hinsert

theorem listed_appendAll (rows : Rows σ α) (n : Nat) :
    ((empty.reserve n).appendAll rows).finalize.rows = Rows.lastOfEach rows ∧
      ((empty.reserve n).appendAll rows).finalize.Listed := by
  -- Appending makes no index, so there is none that `finalize` could leave behind.
  have habsent : ((empty.reserve n).appendAll rows).index = none :=
    foldl_append_index_none rows (reserve_index_none rfl n)
  refine ⟨?_, listed_finalize habsent⟩
  rw [finalize_rows, appendAll, foldl_append_rows, reserve_rows]
  rfl

/-- Both find what is found from behind among all rows. -/
theorem get?_inserted (rows : Rows σ α) (m : Nat) (key : Bytes) :
    ((empty.reserve m).insertAll rows).get? key = Rows.value? key rows.reverse := by
  rw [(listed_insertAll rows m).2.get?, (listed_insertAll rows m).1, Rows.value?_putAll]

theorem get?_collected (rows : Rows σ α) (n : Nat) (key : Bytes) :
    ((empty.reserve n).appendAll rows).finalize.get? key = Rows.value? key rows.reverse := by
  rw [(listed_appendAll rows n).2.get?, (listed_appendAll rows n).1, Rows.value?_lastOfEach]

/-- What holds of the values of all rows holds of those that are left. -/
theorem forall_inserted {P : α → Prop} {rows : Rows σ α} (h : ∀ row ∈ rows, P row.2) (m : Nat) :
    ∀ row ∈ ((empty.reserve m).insertAll rows).rows, P row.2 := by
  refine forall_insertAll ?_ h
  rw [reserve_rows]
  exact List.forall_mem_nil _

theorem forall_collected {P : α → Prop} {rows : Rows σ α} (h : ∀ row ∈ rows, P row.2) (n : Nat) :
    ∀ row ∈ ((empty.reserve n).appendAll rows).finalize.rows, P row.2 := by
  rw [(listed_appendAll rows n).1]
  exact fun row hrow => h row ((Rows.lastOfEach_sublist rows).subset hrow)

end Object

/-- Two rows that say the same: equal keys, whoever owns them, and values with equal contents. -/
structure Live.SameRow (row row' : Held Slice × Live) : Prop where
  key : row.1.bytes = row'.1.bytes
  value : row.2.contents = row'.2.contents

namespace Object

open Live (SameRow contents)

variable {rows copies : Rows Slice Live}

theorem keys_of_sameRows (h : List.Forall₂ SameRow rows copies) : rows.keys = copies.keys := by
  induction h with
  | nil => rfl
  | cons hrow _ ih => rw [Rows.keys_cons, Rows.keys_cons, hrow.key, ih]

/-- What is found from behind says the same. -/
theorem value?_reverse_of_sameRows (h : List.Forall₂ SameRow rows copies) (key : Bytes) :
    (Rows.value? key rows.reverse).map contents =
      (Rows.value? key copies.reverse).map contents := by
  induction h with
  | nil => rfl
  | @cons row row' rows copies hrow hrows ih =>
    rw [Rows.value?_reverse_cons, Rows.value?_reverse_cons, Option.map_or, Option.map_or, ih,
      hrow.key]
    by_cases hkey : row'.1.bytes = key
    · simp only [if_pos hkey, Option.map_some, hrow.value]
    · simp only [if_neg hkey, Option.map_none]

/-- What the values of some rows should be like, for equality to be decided by their trees. -/
def Comparable (rows : Rows Slice Live) : Prop :=
  ∀ row ∈ rows, row.2.contents.NaNFree ∧ row.2.contents.DistinctKeys

theorem comparable_of_sameRows (h : List.Forall₂ SameRow rows copies) (hrows : Comparable rows) :
    Comparable copies := by
  induction h with
  | nil => exact nofun
  | cons hrow _ ih =>
    obtain ⟨hfirst, hothers⟩ := List.forall_mem_cons.mp hrows
    exact List.forall_mem_cons.mpr ⟨hrow.value ▸ hfirst, ih hothers⟩

variable {o p : Object Slice Live}

theorem Listed.distinctKeys_contents (ho : o.Listed) (hrows : Comparable o.rows) :
    (Live.ofObject o).contents.DistinctKeys := by
  rw [Live.contents_ofObject, Value.distinctKeys_object_iff, List.forall_mem_map,
    Rows.keys_relabelled Held.bytes_text]
  exact ⟨ho.distinct, fun row hrow => (hrows row hrow).2⟩

theorem nanFree_contents (hrows : Comparable o.rows) : (Live.ofObject o).contents.NaNFree := by
  rw [Live.contents_ofObject, Value.nanFree_object_iff, List.forall_mem_map]
  exact fun row hrow => (hrows row hrow).1

/-- The tree of an association list is the finite map that lookups show. -/
theorem Listed.treeUnder_contents (ho : o.Listed) (key : Bytes) :
    Value.treeUnder (o.rows.map (Prod.map Held.text contents)) key =
      ((o.get? key).map contents).map Value.tree := by
  have hlisted : (ofRows (o.rows.map (Prod.map Held.text contents))).Listed := by
    refine listed_of_none ?_ rfl
    rw [ofRows, Rows.keys_relabelled Held.bytes_text]
    exact ho.distinct
  have hget := ho.fresh.followsRows.get?_relabelled Held.bytes_text key (f := contents)
  rw [hlisted.get?] at hget
  rw [Value.treeUnder_eq_value?, ← hget]
  rfl

/-- Association lists that hold the same finite map have equal contents, if no value in them is in
the way. -/
theorem equals_contents_of_get? (ho : o.Listed) (hp : p.Listed) (hos : Comparable o.rows)
    (hps : Comparable p.rows)
    (hget : ∀ key, (o.get? key).map contents = (p.get? key).map contents) :
    (Live.ofObject o).contents.equals (Live.ofObject p).contents = true := by
  rw [Value.equals_iff (ho.distinctKeys_contents hos) (hp.distinctKeys_contents hps)]
  refine ⟨nanFree_contents hos, nanFree_contents hps, ?_⟩
  rw [Live.contents_ofObject, Live.contents_ofObject, Value.tree, Value.tree, Tree.object.injEq]
  funext key
  rw [ho.treeUnder_contents, hp.treeUnder_contents, hget]

/-- So the objects are equal, as objects and as values, if moreover no index in them is stale. -/
theorem equals_of_get? (ho : o.Listed) (hp : p.Listed) (hos : Comparable o.rows)
    (hps : Comparable p.rows) (hofresh : ∀ row ∈ o.rows, row.2.Fresh)
    (hpfresh : ∀ row ∈ p.rows, row.2.Fresh)
    (hget : ∀ key, (o.get? key).map contents = (p.get? key).map contents) :
    o.equals Live.equals p = true ∧ (Live.ofObject o).equals (.ofObject p) = true := by
  have hcontents := equals_contents_of_get? ho hp hos hps hget
  have ho' : (Live.ofObject o).Fresh := Live.everyObject_ofObject_iff.mpr ⟨ho.fresh, hofresh⟩
  have hp' : (Live.ofObject p).Fresh := Live.everyObject_ofObject_iff.mpr ⟨hp.fresh, hpfresh⟩
  rw [Live.object_equals (ho.distinctKeys_contents hos) (hp.distinctKeys_contents hps) ho' hp',
    Live.equals_eq_contents _ _ hp']
  exact ⟨hcontents, hcontents⟩

/-- Storing rows one by one and adding them, or copies of them, all before repeated keys are dropped
give the same finite map, whatever room was made beforehand: a key is found if some row has it, with
the value of its last row. Where the values hold no NaN, only objects with distinct keys and no
stale index, the two objects are equal either way round. The rows stand in the order of the first
occurrences of their keys in the one, and of the last ones in the other. `collect` is the second
way, with room for all rows. -/
theorem build_agree (hcopies : List.Forall₂ SameRow rows copies) (m n : Nat) :
    let inserted := (empty.reserve m).insertAll rows
    let collected := ((empty.reserve n).appendAll copies).finalize
    (∀ key value, inserted.get? key = some value ↔ rows.LastValue key value) ∧
    (∀ key value, collected.get? key = some value ↔ copies.LastValue key value) ∧
    (∀ key, (collected.get? key).map contents = (inserted.get? key).map contents) ∧
    (∀ key, inserted.contains key = true ↔ key ∈ rows.keys) ∧
    (∀ key, collected.contains key = true ↔ key ∈ rows.keys) ∧
    ((∀ row ∈ rows, row.2.contents.NaNFree ∧ row.2.contents.DistinctKeys) →
      (∀ row ∈ rows, row.2.Fresh) → (∀ row ∈ copies, row.2.Fresh) →
      inserted.equals Live.equals collected = true ∧
      collected.equals Live.equals inserted = true ∧
      (Live.ofObject inserted).equals (.ofObject collected) = true ∧
      (Live.ofObject collected).equals (.ofObject inserted) = true) ∧
    inserted.rows.keys = rows.keys.eraseDups ∧
    collected.rows.keys = rows.keys.dedup := by
  intro inserted collected
  obtain ⟨hinserted, hlisted⟩ := listed_insertAll rows m
  obtain ⟨hcollected, hlisted'⟩ := listed_appendAll copies n
  have hsame : ∀ key, (collected.get? key).map contents = (inserted.get? key).map contents := by
    intro key
    rw [get?_inserted, get?_collected, value?_reverse_of_sameRows hcopies]
  have hkeys : inserted.rows.keys = rows.keys.eraseDups := by rw [hinserted, Rows.keys_putAll]
  have hkeys' : collected.rows.keys = rows.keys.dedup := by
    rw [hcollected, Rows.keys_lastOfEach, keys_of_sameRows hcopies]
  refine ⟨?found, ?found', hsame, ?inserted, ?collected, ?equal, hkeys, hkeys'⟩
  case found =>
    intro key value
    rw [get?_inserted, Rows.value?_reverse_eq_some_iff]
  case found' =>
    intro key value
    rw [get?_collected, Rows.value?_reverse_eq_some_iff]
  case inserted =>
    intro key
    rw [hlisted.contains_iff, hkeys, List.mem_eraseDups]
  case collected =>
    intro key
    rw [hlisted'.contains_iff, hkeys', List.mem_dedup]
  case equal =>
    intro hrows hfresh hfresh'
    -- What the values must be like does not depend on which row of a key is left.
    have hos : Comparable inserted.rows :=
      forall_inserted (P := fun v : Live => v.contents.NaNFree ∧ v.contents.DistinctKeys) hrows m
    have hps : Comparable collected.rows :=
      forall_collected (P := fun v : Live => v.contents.NaNFree ∧ v.contents.DistinctKeys)
        (comparable_of_sameRows hcopies hrows) n
    have hofresh : ∀ row ∈ inserted.rows, row.2.Fresh := forall_inserted hfresh m
    have hpfresh : ∀ row ∈ collected.rows, row.2.Fresh := forall_collected hfresh' n
    obtain ⟨hobjects, hvalues⟩ :=
      equals_of_get? hlisted hlisted' hos hps hofresh hpfresh fun key => (hsame key).symm
    obtain ⟨hobjects', hvalues'⟩ :=
      equals_of_get? hlisted' hlisted hps hos hpfresh hofresh hsame
    exact ⟨hobjects, hobjects', hvalues, hvalues'⟩

/-- Twenty rows with three keys. -/
def mixedRows : Rows Slice Live :=
  (List.range 20).map fun i => (.owned [UInt8.ofNat (0x61 + i % 3)], .i64 (Int64.ofNat i))

/-- Few rows are left of many, in different orders, and they are equal as objects. -/
theorem build_agree_mixed :
    let inserted := (empty.reserve 0).insertAll mixedRows
    let collected := ((empty.reserve 20).appendAll mixedRows).finalize
    List.Forall₂ SameRow mixedRows mixedRows ∧
      (∀ row ∈ mixedRows, row.2.contents.NaNFree ∧ row.2.contents.DistinctKeys) ∧
      (∀ row ∈ mixedRows, row.2.Fresh) ∧
      inserted.rows.keys = [[0x61], [0x62], [0x63]] ∧
      collected.rows.keys = [[0x63], [0x61], [0x62]] ∧
      inserted.equals Live.equals collected = true ∧
      collected.equals Live.equals inserted = true := by
  have hcopies : List.Forall₂ SameRow mixedRows mixedRows :=
    List.forall₂_same.mpr fun _ _ => ⟨rfl, rfl⟩
  have hrows : ∀ row ∈ mixedRows, row.2.contents.NaNFree ∧ row.2.contents.DistinctKeys :=
    List.forall_mem_map.mpr fun i _ => ⟨Value.nanFree_i64 _, Value.distinctKeys_i64 _⟩
  have hfresh : ∀ row ∈ mixedRows, row.2.Fresh :=
    List.forall_mem_map.mpr fun i _ => Live.everyObject_of_nesting rfl
  obtain ⟨-, -, -, -, -, hequal, hkeys, hkeys'⟩ := build_agree hcopies 0 20
  obtain ⟨hobjects, hobjects', -⟩ := hequal hrows hfresh hfresh
  exact ⟨hcopies, hrows, hfresh, hkeys.trans (by decide +kernel), hkeys'.trans (by decide +kernel),
    hobjects, hobjects'⟩

/-- One row, whose value is an object with a stale index. -/
def staledRows : Rows Slice Live := [(.owned [120], .ofObject Value.staled)]

/-- The value is moved into the one object and copied into the other. It repeats no key and holds no
NaN, but the two objects are equal in one direction only, as objects and as values. -/
theorem build_agree_staled :
    let copies := staledRows.map (Prod.map id Live.copied)
    let inserted := empty.insertAll staledRows
    let collected := (empty.appendAll copies).finalize
    List.Forall₂ SameRow staledRows copies ∧
      (∀ row ∈ staledRows, row.2.contents.NaNFree ∧ row.2.contents.DistinctKeys) ∧
      inserted.equals Live.equals collected = false ∧
      collected.equals Live.equals inserted = true ∧
      (Live.ofObject inserted).equals (.ofObject collected) = true ∧
      (Live.ofObject collected).equals (.ofObject inserted) = false := by
  obtain ⟨hdistinct, hfree⟩ := Value.staled_contents
  refine ⟨?_, List.forall_mem_singleton.mpr ⟨hfree, hdistinct⟩, ?_, ?_, ?_, ?_⟩
  · exact .cons ⟨rfl, (Live.contents_copied _).symm⟩ .nil
  all_goals decide +kernel

end Object

/-! ## §3 Encoding -/

namespace Shape

variable {limit depth : Nat} {o p : Object Slice Live}

/-- Encoding entries stores a row for each entry one by one, under its key. -/
theorem encodeEntries_eq_ok_iff {entries : List (Shape × Shape)} :
    encodeEntries limit depth o entries = .ok p ↔
      ∃ rows : Rows Slice Live,
        List.Forall₂ (fun entry row =>
          (∃ key, entry.1.key = .ok key ∧ row.1 = .owned key) ∧
            encodeAt limit depth entry.2 = .ok row.2) entries rows ∧
        o.insertAll rows = p := by
  induction entries generalizing o with
  | nil => simp [encodeEntries, Object.insertAll]
  | cons entry entries ih =>
    simp only [encodeEntries, bind_eq_ok_iff, ih]
    constructor
    · rintro ⟨key, hkey, v, hv, rows, hrows, rfl⟩
      exact ⟨(.owned key, v) :: rows, .cons ⟨⟨key, hkey, rfl⟩, hv⟩ hrows, rfl⟩
    · rintro ⟨_, hrows, rfl⟩
      cases hrows with
      | cons hentry hrows =>
        obtain ⟨⟨key, hkey, htext⟩, hv⟩ := hentry
        refine ⟨key, hkey, _, hv, _, hrows, ?_⟩
        rw [store, ← htext]
        rfl

/-- Encoding fields stores a row for each field one by one, under its name. -/
theorem encodeFields_eq_ok_iff {fields : List (Bytes × Shape)} :
    encodeFields limit depth o fields = .ok p ↔
      ∃ rows : Rows Slice Live,
        List.Forall₂ (fun field row =>
          row.1 = .owned field.1 ∧ encodeAt limit depth field.2 = .ok row.2) fields rows ∧
        o.insertAll rows = p := by
  induction fields generalizing o with
  | nil => simp [encodeFields, Object.insertAll]
  | cons field fields ih =>
    simp only [encodeFields, bind_eq_ok_iff, ih]
    constructor
    · rintro ⟨v, hv, rows, hrows, rfl⟩
      exact ⟨(.owned field.1, v) :: rows, .cons ⟨rfl, hv⟩ hrows, rfl⟩
    · rintro ⟨_, hrows, rfl⟩
      cases hrows with
      | cons hfield hrows =>
        obtain ⟨htext, hv⟩ := hfield
        refine ⟨_, hv, _, hrows, ?_⟩
        rw [store, ← htext]
        rfl

end Shape

end JsonTree
