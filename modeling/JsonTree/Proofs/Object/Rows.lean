import JsonTree.Object.Rows

/-!
# Rows by key

Where the first and the last row of a key stand, in terms of the list alone, and what is left of
rows when only the last one of each key is kept.

## Main statements

- `Rows.last?_append_singleton`: a new row is the last one of its key.
- `Rows.last?_eq_first?`: where keys do not repeat, the first row of a key is also its last.
- `Rows.map_fst_led`: the rows that a fresh index leads to are the last ones of their keys.
- `Rows.mem_lastOfEach_iff`: a row is kept exactly if no row with its key comes after it.
- `Rows.keys_lastOfEach_nodup`: keeping the last row of each key leaves distinct keys.
-/

namespace JsonTree

namespace Rows

variable {σ α : Type} [Readable σ]

/-- The keys of some rows, in storage order. -/
def keys (rows : Rows σ α) : List Bytes := rows.map (·.1.bytes)

/-- The rows that are the last ones with their key, and their positions. -/
def led (rows : Rows σ α) : List ((Held σ × α) × Nat) :=
  rows.zipIdx.filter fun (row, i) => rows.last? row.1.bytes == some i

/-- The last row of each key, in the order of those last rows. -/
def lastOfEach : Rows σ α → Rows σ α
  | [] => []
  | row :: rows => if hasKey rows row.1.bytes then lastOfEach rows else row :: lastOfEach rows

/-! ## §1 Rows that have a key -/

theorem hasKey_iff (rows : Rows σ α) (key : Bytes) : rows.hasKey key = true ↔ key ∈ rows.keys := by
  simp [hasKey, keys]

theorem hasKey_eq_false_iff (rows : Rows σ α) (key : Bytes) :
    rows.hasKey key = false ↔ key ∉ rows.keys := by
  rw [← hasKey_iff, Bool.not_eq_true]

@[simp]
theorem keys_nil : keys ([] : Rows σ α) = [] := rfl

@[simp]
theorem keys_cons (row : Held σ × α) (rows : Rows σ α) :
    keys (row :: rows) = row.1.bytes :: keys rows := rfl

@[simp]
theorem keys_append (rows rows' : Rows σ α) : keys (rows ++ rows') = rows.keys ++ rows'.keys := by
  simp [keys]

/-- A change of one entry is not seen by what it leaves alone. -/
theorem map_modify_eq {β γ : Type} (f : β → β) (g : β → γ) (h : ∀ b, g (f b) = g b)
    (entries : List β) (i : Nat) : (entries.modify i f).map g = entries.map g := by
  induction entries generalizing i with
  | nil => simp
  | cons b entries ih => cases i <;> simp [h, ih]

/-! ## §2 The first row of a key -/

theorem first?_cons (row : Held σ × α) (rows : Rows σ α) (key : Bytes) :
    first? (row :: rows) key =
      if row.1.bytes = key then some 0 else (first? rows key).map (· + 1) := by
  simp only [first?, List.findIdx?_cons]
  by_cases h : row.1.bytes = key <;> simp [h]

/-- Only the keys decide which row is the first of its key. -/
theorem first?_of_keys {τ β : Type} [Readable τ] {rows : Rows σ α} {others : Rows τ β}
    (hkeys : others.keys = rows.keys) (key : Bytes) : others.first? key = rows.first? key := by
  induction rows generalizing others with
  | nil => rw [List.map_eq_nil_iff.mp hkeys]; rfl
  | cons row rows ih =>
    obtain ⟨other, rest, rfl, hother, hrest⟩ := List.map_eq_cons_iff.mp hkeys
    rw [first?_cons, first?_cons, ih hrest, hother]

theorem first?_isSome_iff (rows : Rows σ α) (key : Bytes) :
    (rows.first? key).isSome = true ↔ key ∈ rows.keys := by
  rw [first?, List.findIdx?_isSome, ← hasKey_iff, hasKey]

/-- The row at the first position of a key has that key. -/
theorem getElem?_of_first? {rows : Rows σ α} {key : Bytes} {i : Nat}
    (h : rows.first? key = some i) : ∃ row, rows[i]? = some row ∧ row.1.bytes = key := by
  rw [first?, List.findIdx?_eq_some_iff_getElem] at h
  obtain ⟨hi, hkey, -⟩ := h
  exact ⟨rows[i], List.getElem?_eq_getElem hi, by simpa using hkey⟩

/-! ## §3 The last row of a key -/

theorem last?_cons (row : Held σ × α) (rows : Rows σ α) (key : Bytes) :
    last? key (row :: rows) =
      match last? key rows with
      | some i => some (i + 1)
      | none => if row.1.bytes = key then some 0 else none := by
  cases h : last? key rows <;> simp [last?, h]

theorem last?_isSome_iff (rows : Rows σ α) (key : Bytes) :
    (rows.last? key).isSome = true ↔ key ∈ rows.keys := by
  induction rows with
  | nil => simp [last?]
  | cons row rows ih =>
    rw [last?_cons, keys_cons, List.mem_cons]
    -- The tail decides wherever it has the key; the head counts only where it has not.
    cases hlast : last? key rows with
    | some i =>
      have hmem : key ∈ keys rows := ih.mp (by simp [hlast])
      simp [hmem]
    | none =>
      have hmem : key ∉ keys rows := by simpa [hlast] using ih
      by_cases hkey : row.1.bytes = key
      · simp [hkey]
      · simp [hkey, hmem, Ne.symm hkey]

theorem last?_eq_none_iff (rows : Rows σ α) (key : Bytes) :
    rows.last? key = none ↔ key ∉ rows.keys := by
  rw [← last?_isSome_iff, ← Option.isNone_iff_eq_none, Option.isNone_iff_eq_none]
  simp

/-- The row at the last position of a key has that key. -/
theorem getElem?_of_last? {rows : Rows σ α} {key : Bytes} {i : Nat}
    (h : rows.last? key = some i) : ∃ row, rows[i]? = some row ∧ row.1.bytes = key := by
  induction rows generalizing i with
  | nil => simp [last?] at h
  | cons row rows ih =>
    rw [last?_cons] at h
    cases hlast : last? key rows with
    | some j =>
      rw [hlast] at h
      obtain rfl : j + 1 = i := by simpa using h
      simpa using ih hlast
    | none =>
      rw [hlast] at h
      by_cases hkey : row.1.bytes = key
      · obtain rfl : 0 = i := by simpa [hkey] using h
        exact ⟨row, rfl, hkey⟩
      · simp [hkey] at h

theorem lt_of_last? {rows : Rows σ α} {key : Bytes} {i : Nat} (h : rows.last? key = some i) :
    i < rows.length := by
  obtain ⟨row, hrow, -⟩ := getElem?_of_last? h
  exact (List.getElem?_eq_some_iff.mp hrow).1

/-- A row that is added at the end is the last one of its key; nothing changes for other keys. -/
theorem last?_append_singleton (rows : Rows σ α) (row : Held σ × α) (key : Bytes) :
    last? key (rows ++ [row]) =
      if row.1.bytes = key then some rows.length else last? key rows := by
  induction rows with
  | nil => simp [last?]
  | cons r rows ih =>
    rw [List.cons_append, last?_cons, ih, last?_cons]
    by_cases hkey : row.1.bytes = key
    · simp [hkey]
    · simp [hkey]

/-- Where keys do not repeat, the first row of a key is also its last. -/
theorem last?_eq_first? {rows : Rows σ α} (hdistinct : rows.keys.Nodup) (key : Bytes) :
    rows.last? key = rows.first? key := by
  induction rows with
  | nil => rfl
  | cons row rows ih =>
    rw [keys_cons, List.nodup_cons] at hdistinct
    rw [last?_cons, first?_cons, ih hdistinct.2]
    by_cases hkey : row.1.bytes = key
    -- The head has the key, so the tail has not.
    · have hnone : first? rows key = none := by
        rw [← ih hdistinct.2, last?_eq_none_iff, ← hkey]
        exact hdistinct.1
      simp [hkey, hnone]
    · cases first? rows key <;> simp [hkey]

/-- Only the keys decide which row is the last of its key. -/
theorem last?_of_keys {τ β : Type} [Readable τ] {rows : Rows σ α} {others : Rows τ β}
    (hkeys : others.keys = rows.keys) (key : Bytes) : others.last? key = rows.last? key := by
  induction rows generalizing others with
  | nil => rw [List.map_eq_nil_iff.mp hkeys, last?, last?]
  | cons row rows ih =>
    obtain ⟨other, rest, rfl, hother, hrest⟩ := List.map_eq_cons_iff.mp hkeys
    rw [last?_cons, last?_cons, ih hrest, hother]

/-! ## §4 Keeping the last row of each key -/

theorem mem_keys_lastOfEach (rows : Rows σ α) (key : Bytes) :
    key ∈ keys (lastOfEach rows) ↔ key ∈ rows.keys := by
  induction rows with
  | nil => rfl
  | cons row rows ih =>
    rw [lastOfEach]
    cases hkey : hasKey rows row.1.bytes with
    | true =>
      have hmem : row.1.bytes ∈ keys rows := (hasKey_iff rows _).mp hkey
      simp only [if_true, keys_cons, List.mem_cons, ih]
      exact ⟨Or.inr, fun h => h.elim (fun heq => heq ▸ hmem) id⟩
    | false => simp [ih]

/-- Keeping the last row of each key leaves distinct keys. -/
theorem keys_lastOfEach_nodup (rows : Rows σ α) : (keys (lastOfEach rows)).Nodup := by
  induction rows with
  | nil => exact List.nodup_nil
  | cons row rows ih =>
    rw [lastOfEach]
    cases hkey : hasKey rows row.1.bytes with
    | true => simpa using ih
    | false =>
      rw [hasKey_eq_false_iff] at hkey
      simpa [mem_keys_lastOfEach, hkey] using ih

/-- A row is kept exactly if no row with its key comes after it. -/
theorem mem_lastOfEach_iff (rows : Rows σ α) (row : Held σ × α) :
    row ∈ lastOfEach rows ↔
      ∃ before after, rows = before ++ row :: after ∧ row.1.bytes ∉ keys after := by
  induction rows with
  | nil => simp [lastOfEach]
  | cons first rows ih =>
    rw [lastOfEach]
    constructor
    · intro h
      cases hkey : hasKey rows first.1.bytes with
      | true =>
        rw [hkey, if_pos rfl, ih] at h
        obtain ⟨before, after, rfl, hafter⟩ := h
        exact ⟨first :: before, after, rfl, hafter⟩
      | false =>
        rw [hkey, if_neg Bool.false_ne_true, List.mem_cons, ih] at h
        rcases h with rfl | ⟨before, after, rfl, hafter⟩
        · exact ⟨[], rows, rfl, (hasKey_eq_false_iff rows _).mp hkey⟩
        · exact ⟨first :: before, after, rfl, hafter⟩
    · rintro ⟨before, after, heq, hafter⟩
      cases before with
      | nil =>
        obtain ⟨rfl, rfl⟩ := List.cons.inj heq
        rw [(hasKey_eq_false_iff rows _).mpr hafter, if_neg Bool.false_ne_true]
        exact List.mem_cons_self
      | cons _ before =>
        obtain ⟨rfl, rfl⟩ := List.cons.inj heq
        have hmem : row ∈ lastOfEach (before ++ row :: after) := ih.mpr ⟨before, after, rfl, hafter⟩
        split
        · exact hmem
        · exact List.mem_cons_of_mem _ hmem

/-- Where keys do not repeat, every row is the last one of its key. -/
theorem lastOfEach_eq_self {rows : Rows σ α} (hdistinct : rows.keys.Nodup) :
    lastOfEach rows = rows := by
  induction rows with
  | nil => rfl
  | cons row rows ih =>
    rw [keys_cons, List.nodup_cons] at hdistinct
    have hkey : hasKey rows row.1.bytes = false := (hasKey_eq_false_iff rows _).mpr hdistinct.1
    simp [lastOfEach, hkey, ih hdistinct.2]

theorem lastOfEach_sublist (rows : Rows σ α) : (lastOfEach rows).Sublist rows := by
  induction rows with
  | nil => exact .refl []
  | cons row rows ih =>
    rw [lastOfEach]
    split
    · exact ih.cons row
    · exact ih.cons_cons row

theorem length_lastOfEach_le (rows : Rows σ α) : (lastOfEach rows).length ≤ rows.length :=
  (lastOfEach_sublist rows).length_le

/-- Where keys do repeat, rows are lost. -/
theorem length_lastOfEach_lt {rows : Rows σ α} (hrepeated : ¬ rows.keys.Nodup) :
    (lastOfEach rows).length < rows.length := by
  induction rows with
  | nil => simp at hrepeated
  | cons row rows ih =>
    rw [lastOfEach]
    cases hkey : hasKey rows row.1.bytes with
    | true => simpa using Nat.lt_succ_of_le (length_lastOfEach_le rows)
    | false =>
      rw [hasKey_eq_false_iff] at hkey
      -- The head is kept, so the repetition is among the others.
      have hrows : ¬ (keys rows).Nodup := fun h => hrepeated (by simp [hkey, h])
      simpa using ih hrows

/-- The rows that a fresh index leads to are the last ones of their keys. -/
theorem map_fst_led (rows : Rows σ α) : rows.led.map (·.1) = lastOfEach rows := by
  induction rows with
  | nil => rfl
  | cons row rows ih =>
    -- A later row is led to in the whole list exactly if it is in the tail, one place earlier.
    have hshift : ∀ p ∈ rows.zipIdx,
        (last? p.1.1.bytes (row :: rows) == some (p.2 + 1)) =
          (last? p.1.1.bytes rows == some p.2) := by
      rintro ⟨r, i⟩ hp
      have hmem : r ∈ rows := by
        have := List.mem_zipIdx_iff_getElem?.mp hp
        exact List.mem_of_getElem? this
      have hsome : (last? r.1.bytes rows).isSome = true :=
        (last?_isSome_iff rows _).mpr (List.mem_map.mpr ⟨r, hmem, rfl⟩)
      obtain ⟨j, hj⟩ := Option.isSome_iff_exists.mp hsome
      simp [last?_cons, hj]
    have htail : ((rows.zipIdx 1).filter fun p =>
        last? p.1.1.bytes (row :: rows) == some p.2).map (·.1) = lastOfEach rows := by
      rw [← ih, led, List.zipIdx_succ, List.filter_map, List.map_map]
      have hfilter := List.filter_congr hshift
      simp only [Function.comp_def]
      exact congrArg (List.map fun p => p.1) hfilter
    have hhead : (last? row.1.bytes (row :: rows) == some 0) = !hasKey rows row.1.bytes := by
      cases hlast : last? row.1.bytes rows with
      | some i =>
        have hkey : hasKey rows row.1.bytes = true :=
          (hasKey_iff rows _).mpr ((last?_isSome_iff rows _).mp (by simp [hlast]))
        simp [last?_cons, hlast, hkey]
      | none =>
        have hkey : hasKey rows row.1.bytes = false :=
          (hasKey_eq_false_iff rows _).mpr ((last?_eq_none_iff rows _).mp hlast)
        simp [last?_cons, hlast, hkey]
    rw [led, List.zipIdx_cons, List.filter_cons, lastOfEach]
    cases hkey : hasKey rows row.1.bytes with
    | true => simpa [hhead, hkey] using htail
    | false => simpa [hhead, hkey] using htail

end Rows

end JsonTree
