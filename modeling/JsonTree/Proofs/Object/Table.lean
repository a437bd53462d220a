import JsonTree.Object.Table
import JsonTree.Proofs.Object.Rows
import Mathlib.Data.List.Perm.Subperm

/-!
# The table of a key index finds what was filed

While every slot spells the key that it was filed for, the chain is in order: the slots of a bucket
stand next to one another, and the table knows where each bucket begins. Then walking one bucket
finds a key exactly if it stands anywhere in the chain. Putting a slot in and growing the table keep
that order, so the table of given rows leads each key to its last row and to nothing else.

## Main statements

- `Table.place?_eq_findIdx?`: walking a bucket finds what the whole chain has.
- `Table.Ordered.insert`, `Table.Ordered.grown`: the order is kept.
- `Table.Files`: tables that some rows were filed in, which lead each key to its last row.
- `Table.Files.file`, `Table.files_ofRows`: filing the next row, and filing all rows.
- `Table.Files.position?`: looking a key up gives the last row that has it.
- `Table.buckets_ofRows`: a table with as many buckets as there are rows never grows.
-/

namespace JsonTree.Table

/-! ## §1 The order of a chain -/

/-- How many slots a chain has from the first one of a bucket on. -/
def begins? (bucket : Bytes → Nat) (b : Nat) : List Slot → Option Nat
  | [] => none
  | s :: chain =>
    if bucket s.spelled = b then some (chain.length + 1) else begins? bucket b chain

/-- The slots of a bucket stand next to one another: behind a run of one bucket it does not come
again. -/
def Contiguous (bucket : Bytes → Nat) : List Slot → Prop
  | [] => True
  | s :: chain =>
    (∀ x ∈ chain.dropWhile (bucket ·.spelled == bucket s.spelled),
      bucket x.spelled ≠ bucket s.spelled) ∧
    Contiguous bucket chain

/-- A table in order. -/
structure Ordered (t : Table) : Prop where
  /-- The table knows where each bucket begins. -/
  starts : ∀ b, t.starts.lookup b = begins? t.bucket b t.chain
  /-- The slots of a bucket stand next to one another. -/
  contiguous : Contiguous t.bucket t.chain
  /-- No key is spelled twice. -/
  distinct : (t.chain.map Slot.spelled).Nodup

/-- A table leads a key to a position if some slot spells the key and has the position. -/
def Leads (t : Table) (key : Bytes) (i : Nat) : Prop :=
  ∃ s ∈ t.chain, s.spelled = key ∧ s.position = i

theorem ordered_empty (buckets : Nat) : Ordered (empty buckets) where
  starts _ := rfl
  contiguous := trivial
  distinct := List.nodup_nil

theorem begins?_le_length {bucket : Bytes → Nat} {b n : Nat} {chain : List Slot}
    (h : begins? bucket b chain = some n) : n ≤ chain.length := by
  induction chain with
  | nil => simp [begins?] at h
  | cons s chain ih =>
    rw [begins?] at h
    split at h
    · obtain rfl : chain.length + 1 = n := by simpa using h
      exact Nat.le_refl _
    · exact Nat.le_succ_of_le (ih h)

theorem begins?_eq_none_iff {bucket : Bytes → Nat} {b : Nat} {chain : List Slot} :
    begins? bucket b chain = none ↔ ∀ s ∈ chain, bucket s.spelled ≠ b := by
  induction chain with
  | nil => simp [begins?]
  | cons s chain ih =>
    rw [begins?]
    split
    · rename_i hb
      simp [hb]
    · rename_i hb
      simp [hb, ih]

/-- Where a bucket has begun, the chain splits there. -/
theorem split_of_begins? {bucket : Bytes → Nat} {b n : Nat} {chain : List Slot}
    (h : begins? bucket b chain = some n) :
    ∃ before first behind, chain = before ++ first :: behind ∧ behind.length + 1 = n ∧
      chain.length - n = before.length ∧ bucket first.spelled = b ∧
      ∀ s ∈ before, bucket s.spelled ≠ b := by
  induction chain with
  | nil => simp [begins?] at h
  | cons s chain ih =>
    rw [begins?] at h
    split at h
    · rename_i hb
      obtain rfl : chain.length + 1 = n := by simpa using h
      exact ⟨[], s, chain, rfl, rfl, by simp, hb, by simp⟩
    · rename_i hb
      obtain ⟨before, first, behind, rfl, hlength, -, hfirst, hbefore⟩ := ih h
      refine ⟨s :: before, first, behind, rfl, hlength, ?_, hfirst,
        List.forall_mem_cons.mpr ⟨hb, hbefore⟩⟩
      simp only [List.length_cons, List.length_append]
      omega

/-! ## §2 Looking up -/

/-- A key is not spelled outside its bucket. -/
theorem findIdx?_eq_none_of_bucket (bucket : Bytes → Nat) {key : Bytes} {slots : List Slot}
    (h : ∀ s ∈ slots, bucket s.spelled ≠ bucket key) :
    slots.findIdx? (·.spelled == key) = none := by
  rw [List.findIdx?_eq_none_iff]
  intro s hs
  have hkey : s.spelled ≠ key := fun heq => h s hs (by rw [heq])
  simpa using hkey

/-- The run of a bucket holds every slot of it, so a key that is not in the run is nowhere. -/
theorem findIdx?_run {bucket : Bytes → Nat} {key : Bytes} {s : Slot} {slots : List Slot}
    (hs : bucket s.spelled = bucket key) (hcontiguous : Contiguous bucket (s :: slots)) :
    (s :: slots.takeWhile (bucket ·.spelled == bucket key)).findIdx? (·.spelled == key) =
      (s :: slots).findIdx? (·.spelled == key) := by
  have hbehind : (slots.dropWhile (bucket ·.spelled == bucket key)).findIdx?
      (·.spelled == key) = none := by
    refine findIdx?_eq_none_of_bucket bucket fun x hx => ?_
    rw [← hs] at hx ⊢
    exact hcontiguous.1 x hx
  calc (s :: slots.takeWhile (bucket ·.spelled == bucket key)).findIdx? (·.spelled == key)
    _ = ((s :: slots.takeWhile (bucket ·.spelled == bucket key)) ++
          slots.dropWhile (bucket ·.spelled == bucket key)).findIdx? (·.spelled == key) := by
        rw [List.findIdx?_append, hbehind]
        simp
    _ = (s :: slots).findIdx? (·.spelled == key) := by
        rw [List.cons_append, List.takeWhile_append_dropWhile]

theorem Contiguous.of_append {bucket : Bytes → Nat} {before behind : List Slot}
    (h : Contiguous bucket (before ++ behind)) : Contiguous bucket behind := by
  induction before with
  | nil => exact h
  | cons s before ih => exact ih h.2

/-- In a table in order, walking a bucket finds what the whole chain has. -/
theorem place?_eq_findIdx? {t : Table} (h : Ordered t) (key : Bytes) :
    t.place? key = t.chain.findIdx? (·.spelled == key) := by
  rw [place?, h.starts]
  cases hbegins : begins? t.bucket (t.bucket key) t.chain with
  | none =>
    rw [findIdx?_eq_none_of_bucket t.bucket (begins?_eq_none_iff.mp hbegins)]
    rfl
  | some n =>
    -- Nothing in front of the bucket spells the key, so the walk may begin there.
    obtain ⟨before, first, behind, hchain, -, hplace, hfirst, hbefore⟩ := split_of_begins? hbegins
    have hdrop : t.chain.drop before.length = first :: behind := by rw [hchain, List.drop_left]
    have hrun := findIdx?_run hfirst (Contiguous.of_append (hchain ▸ h.contiguous))
    simp only [Option.bind_eq_bind, Option.bind_some, hplace, hdrop, hrun]
    rw [hchain, List.findIdx?_append, findIdx?_eq_none_of_bucket t.bucket hbefore]
    simp [Nat.add_comm]

/-- A table in order gives a position for a key exactly if it leads there. -/
theorem position?_eq_some_iff {t : Table} (h : Ordered t) (key : Bytes) (i : Nat) :
    t.position? key = some i ↔ t.Leads key i := by
  rw [position?, place?_eq_findIdx? h]
  constructor
  · intro hposition
    obtain ⟨place, hplace, hrest⟩ := Option.bind_eq_some_iff.mp hposition
    obtain ⟨s, hs, hi⟩ := Option.bind_eq_some_iff.mp hrest
    obtain ⟨hlt, hkey, -⟩ := List.findIdx?_eq_some_iff_getElem.mp hplace
    obtain rfl : t.chain[place] = s := by simpa [List.getElem?_eq_getElem hlt] using hs
    exact ⟨_, List.getElem_mem hlt, by simpa using hkey, by simpa using hi⟩
  · rintro ⟨s, hs, rfl, rfl⟩
    obtain ⟨place, hlt, rfl⟩ := List.getElem_of_mem hs
    -- No earlier slot spells the key, since no key is spelled twice.
    have hfirst : t.chain.findIdx? (·.spelled == t.chain[place].spelled) = some place := by
      rw [List.findIdx?_eq_some_iff_getElem]
      refine ⟨hlt, by simp, fun j hj => ?_⟩
      have hne := List.pairwise_iff_getElem.mp h.distinct j place (by simp; omega) (by simpa) hj
      simpa using hne
    simp [hfirst, hlt]

/-! ## §3 Putting a slot in -/

private theorem lookup_cons_eq_ite (b c n : Nat) (starts : List (Nat × Nat)) :
    ((c, n) :: starts).lookup b = if b = c then some n else starts.lookup b := by
  rw [List.lookup_cons]
  by_cases hb : b = c
  · simp [hb]
  · rw [beq_eq_false_iff_ne.mpr hb, if_neg hb]

theorem lookup_lengthen (n b : Nat) (starts : List (Nat × Nat)) :
    (lengthen n starts).lookup b = (starts.lookup b).map fun m => if n ≤ m then m + 1 else m := by
  induction starts with
  | nil => rfl
  | cons entry starts ih =>
    obtain ⟨c, m⟩ := entry
    rw [lengthen, List.map_cons, ← lengthen, lookup_cons_eq_ite, lookup_cons_eq_ite, ih]
    split <;> rfl

theorem lookup_filter_ne (b c : Nat) (starts : List (Nat × Nat)) (hb : b ≠ c) :
    (starts.filter (·.1 != c)).lookup b = starts.lookup b := by
  induction starts with
  | nil => rfl
  | cons entry starts ih =>
    obtain ⟨c', m⟩ := entry
    by_cases hc : c' = c
    · subst hc
      rw [List.filter_cons_of_neg (by simp), ih, lookup_cons_eq_ite, if_neg hb]
    · rw [List.filter_cons_of_pos (by simpa using hc), lookup_cons_eq_ite, lookup_cons_eq_ite, ih]

theorem lookup_beginAt (c n b : Nat) (starts : List (Nat × Nat)) :
    (beginAt c n starts).lookup b = if b = c then some n else starts.lookup b := by
  rw [beginAt, lookup_cons_eq_ite]
  by_cases hb : b = c
  · rw [if_pos hb, if_pos hb]
  · rw [if_neg hb, if_neg hb, lookup_filter_ne b c starts hb]

/-- A slot that comes first in its bucket moves the beginnings of that bucket and of those before
it one slot away from the end. -/
theorem begins?_insert {bucket : Bytes → Nat} {s first : Slot} {before behind : List Slot}
    (hs : bucket s.spelled = bucket first.spelled) (b : Nat) :
    begins? bucket b (before ++ s :: first :: behind) =
      (begins? bucket b (before ++ first :: behind)).map
        fun n => if behind.length + 1 ≤ n then n + 1 else n := by
  induction before with
  | nil =>
    by_cases hb : bucket first.spelled = b
    · simp [begins?, hs, hb]
    · have hrest : begins? bucket b ([] ++ s :: first :: behind) = begins? bucket b behind := by
        simp [begins?, hs, hb]
      have hold : begins? bucket b ([] ++ first :: behind) = begins? bucket b behind := by
        simp [begins?, hb]
      rw [hrest, hold]
      cases hn : begins? bucket b behind with
      | none => rfl
      | some n =>
        have hle := begins?_le_length hn
        rw [Option.map_some, if_neg (by omega)]
  | cons x before ih =>
    rw [List.cons_append, begins?, List.cons_append, begins?, ih]
    by_cases hx : bucket x.spelled = b
    -- A bucket in front of the new slot lies one slot farther from the end.
    · rw [if_pos hx, if_pos hx, Option.map_some, if_pos (by simp; omega)]
      simp
      omega
    · rw [if_neg hx, if_neg hx]

/-- Leaving out slots from the front stops at a slot that is to stay, whatever stands before it. -/
theorem dropWhile_append_cons {p : Slot → Bool} {x : Slot} (hx : p x = false)
    (before behind : List Slot) :
    (before ++ x :: behind).dropWhile p = before.dropWhile p ++ x :: behind := by
  induction before with
  | nil => simp [hx]
  | cons y before ih =>
    rw [List.cons_append, List.dropWhile_cons, List.dropWhile_cons]
    split
    · exact ih
    · rfl

theorem Contiguous.insert {bucket : Bytes → Nat} {s first : Slot} {before behind : List Slot}
    (hs : bucket s.spelled = bucket first.spelled)
    (hbefore : ∀ x ∈ before, bucket x.spelled ≠ bucket first.spelled)
    (h : Contiguous bucket (before ++ first :: behind)) :
    Contiguous bucket (before ++ s :: first :: behind) := by
  induction before with
  | nil => exact ⟨by simpa [hs] using h.1, h⟩
  | cons x before ih =>
    have hx : bucket x.spelled ≠ bucket first.spelled := hbefore x (by simp)
    have hfirst : (bucket first.spelled == bucket x.spelled) = false := by simpa using Ne.symm hx
    refine ⟨fun y hy => ?_, ih (fun y hy => hbefore y (by simp [hy])) h.2⟩
    -- What stands behind the run of `x` is what stood there, and perhaps the new slot.
    have hold := h.1
    rw [List.append_eq, dropWhile_append_cons (by simpa using hfirst)] at hold
    rw [List.append_eq, dropWhile_append_cons (by simpa [hs] using hfirst)] at hy
    rcases List.mem_append.mp hy with hy | hy
    · exact hold y (List.mem_append_left _ hy)
    · rcases List.mem_cons.mp hy with rfl | hy
      · exact hs ▸ Ne.symm hx
      · exact hold y (List.mem_append_right _ hy)

theorem insertIdx_length_append (before behind : List Slot) (s : Slot) :
    (before ++ behind).insertIdx before.length s = before ++ s :: behind := by
  induction before with
  | nil => simp
  | cons x before ih => simp [ih]

@[simp]
theorem insert_buckets (t : Table) (s : Slot) : (t.insert s).buckets = t.buckets := by
  rw [insert]
  split <;> rfl

theorem bucket_insert (t : Table) (s : Slot) : (t.insert s).bucket = t.bucket := by
  funext key
  rw [bucket, bucket, insert_buckets]

/-- A new bucket begins the whole chain. Of the others only the one that began it so far is told
anew where it begins. -/
theorem Ordered.lookup_insert_front {t : Table} (h : Ordered t) {s : Slot}
    (hnew : begins? t.bucket (t.bucket s.spelled) t.chain = none) (b : Nat) :
    (t.insert s).starts.lookup b = begins? t.bucket b (s :: t.chain) := by
  rw [begins?, Table.insert, h.starts, hnew]
  cases hchain : t.chain with
  | nil =>
    have hb : t.starts.lookup b = none := by rw [h.starts, hchain, begins?]
    simp only [lookup_beginAt, lookup_lengthen, hb]
    by_cases hs : b = t.bucket s.spelled
    · simp [hs]
    · simp [hs, Ne.symm hs, begins?]
  | cons first behind =>
    have hfirst : t.bucket first.spelled ≠ t.bucket s.spelled :=
      begins?_eq_none_iff.mp hnew first (by simp [hchain])
    simp only [lookup_beginAt, lookup_lengthen, h.starts, hchain]
    by_cases hs : b = t.bucket s.spelled
    · simp [hs]
    · by_cases hb : b = t.bucket first.spelled
      · simp [hb, begins?, Ne.symm hfirst, hfirst]
      · -- Any other bucket begins behind the first slot, and keeps its distance from the end.
        rw [if_neg hs, if_neg hb, if_neg (Ne.symm hs), begins?, if_neg (Ne.symm hb)]
        cases hn : begins? t.bucket b behind with
        | none => rfl
        | some n =>
          have hle := begins?_le_length hn
          rw [Option.map_some, if_neg (by simp; omega)]

/-- A table in order stays in order when a slot comes in whose key it does not have, and has then
that slot besides the others. -/
theorem Ordered.insert {t : Table} (h : Ordered t) {s : Slot}
    (hfresh : s.spelled ∉ t.chain.map Slot.spelled) :
    Ordered (t.insert s) ∧ (t.insert s).chain.Perm (s :: t.chain) := by
  cases hbegins : begins? t.bucket (t.bucket s.spelled) t.chain with
  | some n =>
    -- The bucket is there already, and the slot comes first in it.
    obtain ⟨before, first, behind, hchain, hlength, hplace, hfirst, hbefore⟩ :=
      split_of_begins? hbegins
    have hnew : (t.insert s).chain = before ++ s :: first :: behind := by
      rw [Table.insert, h.starts, hbegins]
      simp only [hplace]
      rw [hchain, insertIdx_length_append]
    have hstarts : (t.insert s).starts = lengthen n t.starts := by
      rw [Table.insert, h.starts, hbegins]
    have hperm : (t.insert s).chain.Perm (s :: t.chain) := by
      rw [hnew, hchain]
      exact List.perm_middle
    refine ⟨⟨fun b => ?_, ?_, ?_⟩, hperm⟩
    · rw [hstarts, lookup_lengthen, h.starts, bucket_insert, hnew, begins?_insert hfirst.symm b,
        ← hchain, hlength]
    · rw [bucket_insert, hnew]
      exact Contiguous.insert hfirst.symm (fun x hx heq => hbefore x hx (heq.trans hfirst))
        (hchain ▸ h.contiguous)
    · rw [(hperm.map Slot.spelled).nodup_iff, List.map_cons, List.nodup_cons]
      exact ⟨hfresh, h.distinct⟩
  | none =>
    -- A new bucket comes to the front of the whole chain.
    have hnone : ∀ x ∈ t.chain, t.bucket x.spelled ≠ t.bucket s.spelled :=
      begins?_eq_none_iff.mp hbegins
    have hnew : (t.insert s).chain = s :: t.chain := by rw [Table.insert, h.starts, hbegins]
    refine ⟨⟨fun b => ?_, ?_, ?_⟩, List.Perm.of_eq hnew⟩
    · rw [bucket_insert, hnew, h.lookup_insert_front hbegins]
    · rw [bucket_insert, hnew]
      exact ⟨fun x hx => hnone x (List.dropWhile_sublist _ |>.mem hx), h.contiguous⟩
    · rw [hnew, List.map_cons, List.nodup_cons]
      exact ⟨hfresh, h.distinct⟩

/-! ## §4 Growing and filing -/

/-- Putting in slots of different keys, one by one, gives a table in order that has them all. -/
theorem ordered_foldl_insert (slots : List Slot) (t : Table) (h : Ordered t)
    (hdistinct : ((slots ++ t.chain).map Slot.spelled).Nodup) :
    Ordered (slots.foldl Table.insert t) ∧
      (slots.foldl Table.insert t).chain.Perm (slots ++ t.chain) := by
  induction slots generalizing t with
  | nil => exact ⟨h, List.Perm.refl _⟩
  | cons s slots ih =>
    have hmiddle : ((slots ++ s :: t.chain).map Slot.spelled).Nodup :=
      ((List.perm_middle.map Slot.spelled).nodup_iff).mpr hdistinct
    have hfresh : s.spelled ∉ t.chain.map Slot.spelled := by
      rw [List.map_append, List.map_cons] at hmiddle
      exact (List.nodup_cons.mp (List.nodup_append.mp hmiddle).2.1).1
    obtain ⟨hordered, hperm⟩ := h.insert hfresh
    have hnext := (List.Perm.append_left slots hperm).map Slot.spelled
    obtain ⟨hall, hchain⟩ := ih (t.insert s) hordered (hnext.nodup_iff.mpr hmiddle)
    refine ⟨hall, ?_⟩
    calc ((s :: slots).foldl Table.insert t).chain
      _ = (slots.foldl Table.insert (t.insert s)).chain := rfl
      _ |>.Perm (slots ++ (t.insert s).chain) := hchain
      _ |>.Perm (slots ++ s :: t.chain) := List.Perm.append_left slots hperm
      _ |>.Perm (s :: slots ++ t.chain) := List.perm_middle

/-- Growing keeps the order and the slots. -/
theorem Ordered.grown {t : Table} (h : Ordered t) :
    Ordered t.grown ∧ t.grown.chain.Perm t.chain := by
  rw [Table.grown]
  split
  · exact ⟨h, List.Perm.refl _⟩
  · have hall := ordered_foldl_insert t.chain (empty (bucketsFor (2 * t.buckets)))
      (ordered_empty _) (by simpa [empty] using h.distinct)
    simpa [empty] using hall

/-- A bucket function that spelling decides sees no difference between chains that spell the same
keys in the same order. -/
theorem begins?_congr (bucket : Bytes → Nat) (b : Nat) {chain chain' : List Slot}
    (h : chain.map Slot.spelled = chain'.map Slot.spelled) :
    begins? bucket b chain = begins? bucket b chain' := by
  induction chain generalizing chain' with
  | nil => rw [List.map_eq_nil_iff.mp h.symm]
  | cons s chain ih =>
    obtain ⟨s', rest, rfl, hs, hrest⟩ := List.map_eq_cons_iff.mp h.symm
    have hlength : rest.length = chain.length := by
      simpa using congrArg List.length hrest
    rw [begins?, begins?, hs, hlength, ih hrest.symm]

theorem contiguous_congr (bucket : Bytes → Nat) {chain chain' : List Slot}
    (h : chain.map Slot.spelled = chain'.map Slot.spelled) :
    Contiguous bucket chain ↔ Contiguous bucket chain' := by
  induction chain generalizing chain' with
  | nil => rw [List.map_eq_nil_iff.mp h.symm]
  | cons s chain ih =>
    obtain ⟨s', rest, rfl, hs, hrest⟩ := List.map_eq_cons_iff.mp h.symm
    have hdrop : ∀ slots : List Slot,
        (∀ x ∈ slots.dropWhile (bucket ·.spelled == bucket s.spelled),
          bucket x.spelled ≠ bucket s.spelled) ↔
        ∀ x ∈ (slots.map Slot.spelled).dropWhile (bucket · == bucket s.spelled),
          bucket x ≠ bucket s.spelled := by
      intro slots
      simp [List.dropWhile_map, Function.comp_def]
    rw [Contiguous, Contiguous, ih hrest.symm, hs, hdrop, hdrop, hrest]

private theorem leads_cons {s : Slot} {others : List Slot}
    (hothers : ∀ x ∈ others, x.spelled ≠ s.spelled) (key : Bytes) (j : Nat) :
    (∃ x ∈ s :: others, x.spelled = key ∧ x.position = j) ↔
      if key = s.spelled then j = s.position
      else ∃ x ∈ others, x.spelled = key ∧ x.position = j := by
  by_cases hkey : key = s.spelled
  · subst hkey
    simp only [List.mem_cons, exists_eq_or_imp, true_and, if_true]
    constructor
    · rintro (hposition | ⟨x, hx, heq, -⟩)
      · exact hposition.symm
      · exact absurd heq (hothers x hx)
    · exact fun hposition => .inl hposition.symm
  · simp [hkey, Ne.symm hkey]

/-- A new key comes into the table, which may grow first. -/
theorem Ordered.insert_grown {t : Table} (h : Ordered t) {s : Slot}
    (hplace : t.chain.findIdx? (·.spelled == s.spelled) = none) :
    Ordered (t.grown.insert s) ∧ (t.grown.insert s).chain.Perm (s :: t.chain) ∧
      ∀ x ∈ t.chain, x.spelled ≠ s.spelled := by
  have hfresh : ∀ x ∈ t.chain, x.spelled ≠ s.spelled := fun x hx => by
    simpa using List.findIdx?_eq_none_iff.mp hplace x hx
  obtain ⟨hgrown, hperm⟩ := h.grown
  have hkey : s.spelled ∉ t.grown.chain.map Slot.spelled := by
    intro hmem
    obtain ⟨x, hx, heq⟩ := List.mem_map.mp hmem
    exact hfresh x (hperm.mem_iff.mp hx) heq
  obtain ⟨hordered, hchain⟩ := hgrown.insert hkey
  exact ⟨hordered, hchain.trans (hperm.cons s), hfresh⟩

/-- Filing a key leads it to the given position, and leads other keys where they were led before. -/
theorem Ordered.file {t : Table} (h : Ordered t) (spot : Spot) (key : Bytes) (i : Nat) :
    Ordered (t.file spot key i) ∧
      ∀ key' j, (t.file spot key i).Leads key' j ↔
        if key' = key then j = i else t.Leads key' j := by
  rw [Table.file, place?_eq_findIdx? h]
  cases hplace : t.chain.findIdx? (·.spelled == key) with
  | some place =>
    -- The key is filed already. Only the position of its slot changes, and nothing is respelled.
    obtain ⟨hlt, hkey, -⟩ := List.findIdx?_eq_some_iff_getElem.mp hplace
    have hspelled : (t.chain.modify place fun s => { s with position := i }).map Slot.spelled =
        t.chain.map Slot.spelled :=
      Rows.map_modify_eq (fun s => { s with position := i }) Slot.spelled (fun _ => rfl) _ _
    refine ⟨⟨fun b => ?_, ?_, ?_⟩, fun key' j => ?_⟩
    · exact (h.starts b).trans (begins?_congr t.bucket b hspelled.symm)
    · exact (contiguous_congr t.bucket hspelled).mpr h.contiguous
    · exact hspelled ▸ h.distinct
    · obtain ⟨before, s, behind, hchain, hlength, hnew⟩ :=
        List.exists_of_modify (fun s : Slot => { s with position := i }) hlt
      have hs : s.spelled = key := by simpa [hchain, ← hlength] using hkey
      have hold : t.chain.Perm (s :: (before ++ behind)) := by
        rw [hchain]
        exact List.perm_middle
      have hothers : ∀ x ∈ before ++ behind, x.spelled ≠ key := by
        have hdistinct := ((hold.map Slot.spelled).nodup_iff).mp h.distinct
        rw [List.map_cons, List.nodup_cons, hs] at hdistinct
        exact fun x hx heq => hdistinct.1 (List.mem_map.mpr ⟨x, hx, heq⟩)
      simp only [Leads, hnew, List.perm_middle.mem_iff, hold.mem_iff]
      rw [leads_cons (by simpa [hs] using hothers), leads_cons (by simpa [hs] using hothers), hs]
      by_cases hkey' : key' = key
      · rw [if_pos hkey', if_pos hkey']
      · rw [if_neg hkey', if_neg hkey', if_neg hkey']
  | none =>
    -- A new key: the table may grow first, and growing is no change of what it leads to.
    obtain ⟨hordered, hchain, hothers⟩ := h.insert_grown (s := ⟨spot, key, i⟩) hplace
    refine ⟨hordered, fun key' j => ?_⟩
    simp only [Leads, hchain.mem_iff]
    exact leads_cons hothers key' j

/-! ## §5 How many buckets a table needs -/

/-- A table has no more slots than buckets. -/
def Fits (t : Table) : Prop := t.chain.length ≤ t.buckets

theorem le_bucketsFor (wanted : Nat) : wanted ≤ bucketsFor wanted := by
  rw [bucketsFor]
  cases hfind : bucketCounts.find? (wanted ≤ ·) with
  | some n => simpa using List.find?_some hfind
  | none => exact Nat.le_refl wanted

theorem length_insert (t : Table) (s : Slot) :
    (t.insert s).chain.length = t.chain.length + 1 := by
  rw [insert]
  split
  · simp [List.length_insertIdx]
  · rfl

theorem length_foldl_insert (slots : List Slot) (t : Table) :
    (slots.foldl insert t).chain.length = t.chain.length + slots.length ∧
      (slots.foldl insert t).buckets = t.buckets := by
  induction slots generalizing t with
  | nil => exact ⟨rfl, rfl⟩
  | cons s slots ih =>
    obtain ⟨hlength, hbuckets⟩ := ih (t.insert s)
    rw [length_insert] at hlength
    rw [insert_buckets] at hbuckets
    rw [List.foldl_cons, List.length_cons]
    exact ⟨by omega, hbuckets⟩

/-- A table that has grown has a bucket to spare. -/
theorem Fits.grown {t : Table} (h : t.Fits) :
    t.grown.chain.length = t.chain.length ∧ t.chain.length < t.grown.buckets := by
  rw [Fits] at h
  rw [Table.grown]
  split
  · rename_i hroom
    exact ⟨rfl, hroom⟩
  · obtain ⟨hlength, hbuckets⟩ :=
      length_foldl_insert t.chain (empty (bucketsFor (2 * t.buckets)))
    rw [hlength, hbuckets]
    refine ⟨Nat.zero_add _, ?_⟩
    change t.chain.length < bucketsFor (2 * t.buckets)
    -- Doubling no buckets would leave none; the least table has some.
    rcases Nat.eq_zero_or_pos t.buckets with hnone | hsome
    · have hpositive : 0 < bucketsFor (2 * 0) := by decide
      rw [hnone] at h ⊢
      omega
    · have hdouble := le_bucketsFor (2 * t.buckets)
      omega

theorem Fits.file {t : Table} (h : t.Fits) (spot : Spot) (key : Bytes) (i : Nat) :
    (t.file spot key i).Fits := by
  rw [Table.file]
  split
  · rw [Fits, List.length_modify]
    exact h
  · obtain ⟨hlength, hroom⟩ := h.grown
    rw [Fits, length_insert, insert_buckets, hlength]
    exact hroom

/-- A table with a bucket to spare does not grow when one more key is filed. -/
theorem file_of_room {t : Table} (h : t.chain.length < t.buckets) (spot : Spot) (key : Bytes)
    (i : Nat) :
    (t.file spot key i).buckets = t.buckets ∧
      (t.file spot key i).chain.length ≤ t.chain.length + 1 := by
  have hgrown : t.grown = t := if_pos h
  rw [Table.file]
  split
  · exact ⟨rfl, by rw [List.length_modify]; omega⟩
  · rw [hgrown, length_insert, insert_buckets]
    exact ⟨rfl, Nat.le_refl _⟩

/-! ## §6 Tables that have filed rows -/

theorem map_spot_modify (chain : List Slot) (place i : Nat) :
    (chain.modify place fun s => { s with position := i }).map Slot.spot = chain.map Slot.spot :=
  Rows.map_modify_eq (fun s => { s with position := i }) Slot.spot (fun _ => rfl) _ _

/-- Filing a key brings no spot into the table but its own. -/
theorem Ordered.spot_of_mem_file {t : Table} (h : Ordered t) {spot : Spot} {key : Bytes} {i : Nat}
    {s : Slot} (hs : s ∈ (t.file spot key i).chain) :
    s.spot = spot ∨ s.spot ∈ t.chain.map Slot.spot := by
  rw [Table.file, place?_eq_findIdx? h] at hs
  cases hplace : t.chain.findIdx? (·.spelled == key) with
  | some place =>
    rw [hplace] at hs
    exact .inr (map_spot_modify t.chain place i ▸ List.mem_map_of_mem hs)
  | none =>
    rw [hplace] at hs
    obtain ⟨-, hchain, -⟩ := h.insert_grown (s := ⟨spot, key, i⟩) hplace
    rcases List.mem_cons.mp (hchain.mem_iff.mp hs) with rfl | hmem
    · exact .inl rfl
    · exact .inr (List.mem_map_of_mem hmem)

section files

variable {σ α : Type} [Readable σ]

/-- A table that some rows were filed in. -/
structure Files (t : Table) (rows : Rows σ α) : Prop where
  ordered : Ordered t
  /-- It leads each key to the last row that has it, and nothing else anywhere. -/
  leads : ∀ key i, t.Leads key i ↔ rows.last? key = some i
  fits : t.Fits
  /-- It looks at no cell behind the rows. -/
  cells : ∀ s ∈ t.chain, ∀ i, s.spot = .cell i → i < rows.length

variable {t : Table} {rows : Rows σ α}

theorem files_empty (buckets : Nat) : (empty buckets).Files ([] : Rows σ α) where
  ordered := ordered_empty buckets
  leads := by simp [Leads, empty, Rows.last?]
  fits := Nat.zero_le _
  cells := nofun

/-- Looking a key up gives the last row that has it. -/
theorem Files.position? (h : t.Files rows) (key : Bytes) : t.position? key = rows.last? key := by
  ext i
  rw [position?_eq_some_iff h.ordered, h.leads]

/-- A table knows rows by their keys. -/
theorem Files.of_keys {τ β : Type} [Readable τ] (h : t.Files rows) {others : Rows τ β}
    (hkeys : others.keys = rows.keys) : t.Files others where
  ordered := h.ordered
  leads key i := by rw [h.leads, Rows.last?_of_keys hkeys]
  fits := h.fits
  cells s hs i hspot := by
    have hlength : others.length = rows.length := by
      simpa only [Rows.keys, List.length_map] using congrArg List.length hkeys
    exact hlength ▸ h.cells s hs i hspot

/-- The row that comes next is filed under its place. -/
theorem Files.file (h : t.Files rows) (blocks : Blocks) (row : Held σ × α) :
    (t.file (blocks.spot rows.length row.1) row.1.bytes rows.length).Files (rows ++ [row]) := by
  obtain ⟨hordered, hleads⟩ :=
    h.ordered.file (blocks.spot rows.length row.1) row.1.bytes rows.length
  refine ⟨hordered, fun key i => ?_, h.fits.file .., fun s hs i hspot => ?_⟩
  · rw [hleads, Rows.last?_append_singleton]
    by_cases hkey : key = row.1.bytes
    · simp [hkey, eq_comm]
    · simp [hkey, Ne.symm hkey, h.leads]
  · rw [List.length_append, List.length_singleton]
    rcases h.ordered.spot_of_mem_file hs with hnew | hold
    -- An owned key lies in its own place.
    · obtain rfl : rows.length = i := by
        rw [hnew, Blocks.spot, Blocks.home] at hspot
        split at hspot
        · cases hspot
        · split at hspot
          · cases hspot
          · exact Spot.cell.inj hspot
      exact Nat.lt_succ_self _
    · obtain ⟨s', hs', heq⟩ := List.mem_map.mp hold
      exact Nat.lt_succ_of_lt (h.cells s' hs' i (heq.trans hspot))

/-- What is written to a place behind the rows is not seen. -/
theorem Files.after_placed (h : t.Files rows) (key : Held σ) :
    t.after [Blocks.placed rows.length key] = t := by
  have hslots : ∀ s ∈ t.chain, ([Blocks.placed rows.length key]).foldl Slot.after s = s := by
    intro s hs
    have hspot : s.spot ≠ .cell rows.length := fun heq =>
      Nat.lt_irrefl _ (h.cells s hs rows.length heq)
    rw [List.foldl_cons, List.foldl_nil, Blocks.placed, Slot.after, if_neg hspot]
  rw [after, List.map_congr_left hslots, List.map_id']

theorem files_foldl_file (blocks : Blocks) (rows done : Rows σ α) (t : Table) (h : t.Files done) :
    ((rows.zipIdx done.length).foldl
      (fun t (row, i) => t.file (blocks.spot i row.1) row.1.bytes i) t).Files (done ++ rows) := by
  -- The rows that are filed move over to `done`, and the table follows them.
  induction rows generalizing done t with
  | nil => simpa using h
  | cons row rows ih => simpa [List.zipIdx_cons] using ih (done ++ [row]) _ (h.file blocks row)

/-- Given rows are filed one after the other. -/
theorem files_ofRows (buckets : Nat) (rows : Rows σ α) (blocks : Blocks) :
    (ofRows buckets rows blocks).Files rows :=
  files_foldl_file blocks rows [] (empty buckets) (files_empty buckets)

/-- A table has a slot for each key. -/
theorem Files.length_chain (h : t.Files rows) :
    t.chain.length = (Rows.lastOfEach rows).length := by
  have hmem : ∀ key, key ∈ t.chain.map Slot.spelled ↔ key ∈ (Rows.lastOfEach rows).keys := by
    intro key
    rw [Rows.mem_keys_lastOfEach, ← Rows.last?_isSome_iff, Option.isSome_iff_exists]
    simp only [← h.leads, Leads, List.mem_map]
    exact ⟨fun ⟨s, hs, hkey⟩ => ⟨s.position, s, hs, hkey, rfl⟩,
      fun ⟨_, s, hs, hkey, _⟩ => ⟨s, hs, hkey⟩⟩
  have hperm := ((List.perm_ext_iff_of_nodup h.ordered.distinct
    (Rows.keys_lastOfEach_nodup rows)).mpr hmem).length_eq
  simpa only [Rows.keys, List.length_map] using hperm

/-- A slot leads to a row exactly if that is the last one of its key. -/
theorem Files.exists_slot_iff (h : t.Files rows) (i : Nat) :
    (∃ s ∈ t.chain, s.position = i) ↔
      ∃ row, rows[i]? = some row ∧ rows.last? row.1.bytes = some i := by
  constructor
  · rintro ⟨s, hs, rfl⟩
    have hlast := (h.leads s.spelled s.position).mp ⟨s, hs, rfl, rfl⟩
    obtain ⟨row, hrow, hkey⟩ := Rows.getElem?_of_last? hlast
    exact ⟨row, hrow, hkey ▸ hlast⟩
  · rintro ⟨row, -, hlast⟩
    obtain ⟨s, hs, -, hposition⟩ := (h.leads row.1.bytes i).mpr hlast
    exact ⟨s, hs, hposition⟩

/-- A table with as many buckets as there are rows never grows. -/
theorem buckets_ofRows {buckets : Nat} {rows : Rows σ α} (h : rows.length ≤ buckets)
    (blocks : Blocks) : (ofRows buckets rows blocks).buckets = buckets := by
  have hrun : ∀ (rows : List ((Held σ × α) × Nat)) (t : Table),
      t.chain.length + rows.length ≤ t.buckets →
      (rows.foldl (fun t (row, i) => t.file (blocks.spot i row.1) row.1.bytes i) t).buckets =
        t.buckets := by
    intro rows
    -- Each row that is filed takes at most one of the buckets that are left.
    induction rows with
    | nil => exact fun t _ => rfl
    | cons row rows ih =>
      obtain ⟨row, i⟩ := row
      intro t hroom
      rw [List.length_cons] at hroom
      obtain ⟨hbuckets, hlength⟩ :=
        file_of_room (t := t) (by omega) (blocks.spot i row.1) row.1.bytes i
      rw [List.foldl_cons, ih _ (by dsimp only; omega), hbuckets]
  refine hrun _ _ ?_
  change 0 + rows.zipIdx.length ≤ buckets
  rw [List.length_zipIdx]
  omega

end files

end JsonTree.Table
