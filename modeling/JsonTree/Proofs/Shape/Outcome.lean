import JsonTree.Proofs.Live.Encode
import JsonTree.Proofs.Shape.Meaning

/-!
# The outcome of encoding

Encoding is a sequence of calls and steps. Each part of it has an outcome that its calls decide:
either all of them pass, and what is encoded has a property, or the first one that fails gives the
failure. Outcomes are put together as the encoder puts its parts together, so that in the end a
shape is encoded as its structural meaning or fails as its first failing call does.

## Main definitions

- `Shape.Outcome`: a result that follows from some calls.
- `Shape.Holds`: an object that holds some members so far.

## Main statements

- `Shape.Outcome.bind`: a step after another.
- `Shape.contentsAt_outcome`: the outcome of encoding a shape at a depth.
- `Shape.encode_eq_iff`: encoding gives the structural meaning, or the first failure.
-/

namespace JsonTree

/-- Storing in rows that are given by their keys: the value changes, and a new key comes last. -/
theorem Rows.put_map {α : Type} (g : Bytes → α) (key : Bytes) (value : α) {ks : List Bytes}
    (hdistinct : ks.Nodup) :
    (Rows.put (.owned key) value (ks.map fun k => ((.owned k : Text), g k))).2 =
      (if key ∈ ks then ks else ks ++ [key]).map
        fun k => (.owned k, if k = key then value else g k) := by
  have hsame : ∀ ks : List Bytes, key ∉ ks →
      ks.map (fun k => ((.owned k : Text), g k)) =
        ks.map fun k => (.owned k, if k = key then value else g k) := by
    intro ks hks
    refine List.map_congr_left fun k hk => ?_
    rw [if_neg fun heq : k = key => hks (heq ▸ hk)]
  induction ks with
  | nil => simp [put]
  | cons k ks ih =>
    obtain ⟨hk, hks⟩ := List.nodup_cons.mp hdistinct
    have hbytes : (.owned k : Text).bytes = k := rfl
    have hbytes' : (.owned key : Text).bytes = key := rfl
    rw [List.map_cons, put]
    simp only [hbytes, hbytes']
    by_cases hkey : k = key
    -- The key comes first, and so it does not come again.
    · subst hkey
      simp [hsame ks hk]
    · simp only [if_neg hkey, ih hks, List.mem_cons, Ne.symm hkey, false_or]
      split <;> simp [hkey]

namespace Shape

/-! ## §1 Outcomes -/

/-- A result that follows from some calls: what is given has a property if all of them pass, and
otherwise the first one that fails gives the failure. -/
def Outcome {α : Type} (limit : Nat) (cs : List Call) (P : α → Prop) :
    Except EncodeError α → Prop
  | .ok a => (∀ c ∈ cs, c.Passes limit) ∧ P a
  | .error e => FirstFailure limit cs e

variable {α β : Type} {limit : Nat} {cs cs' : List Call} {P : α → Prop} {Q : β → Prop}
  {x : Except EncodeError α}

theorem Outcome.ok {a : α} (h : P a) : Outcome limit [] P (.ok a) := ⟨List.forall_mem_nil _, h⟩

/-- A step after another: its calls come after those of the first. -/
theorem Outcome.bind {f : α → Except EncodeError β} (hx : Outcome limit cs P x)
    (hf : ∀ a, P a → Outcome limit cs' Q (f a)) : Outcome limit (cs ++ cs') Q (x >>= f) := by
  cases x with
  | error e => exact hx.append cs'
  | ok a =>
    obtain ⟨hpasses, ha⟩ := hx
    have hstep := hf a ha
    change Outcome limit (cs ++ cs') Q (f a)
    cases hresult : f a with
    | error e =>
      rw [hresult] at hstep
      exact .of_append hpasses hstep
    | ok b =>
      rw [hresult] at hstep
      exact ⟨List.forall_mem_append.mpr ⟨hpasses, hstep.1⟩, hstep.2⟩

theorem Outcome.map {f : α → β} (hx : Outcome limit cs P x) (hf : ∀ a, P a → Q (f a)) :
    Outcome limit cs Q (f <$> x) := by
  cases x with
  | error e => exact hx
  | ok a => exact ⟨hx.1, hf a hx.2⟩

theorem Outcome.imp {Q : α → Prop} (hx : Outcome limit cs P x) (h : ∀ a, P a → Q a) :
    Outcome limit cs Q x := by
  cases x with
  | error e => exact hx
  | ok a => exact ⟨hx.1, h a hx.2⟩

/-! ## §2 Single steps -/

/-- Opening a container is one call, which comes before those of the contents. -/
theorem Outcome.opened {f : Nat → Except EncodeError α} {depth : Nat}
    (h : Outcome limit cs P (f (depth + 1))) :
    Outcome limit (.opening (depth + 1) :: cs) P (descend limit depth >>= f) := by
  rw [descend]
  split
  · rename_i hbeyond
    exact .here (.opening hbeyond)
  · rename_i hwithin
    have hpasses : (Call.opening (depth + 1)).Passes limit := by
      rintro e ⟨hbeyond⟩
      exact hwithin hbeyond
    change Outcome limit _ P (f (depth + 1))
    cases hresult : f (depth + 1) with
    | error e =>
      rw [hresult] at h
      exact .later hpasses h
    | ok a =>
      rw [hresult] at h
      exact ⟨List.forall_mem_cons.mpr ⟨hpasses, h.1⟩, h.2⟩

/-- What a shape gives as a key. -/
theorem key_cases (k : Shape) :
    (∃ text, k.key = .ok text ∧ k.Names text) ∨
      k.key = .error .keyNotString ∧ ∀ text, ¬ k.Names text := by
  cases k with
  | text content => exact .inl ⟨content, rfl, .text⟩
  | unitVariant name => exact .inl ⟨name, rfl, .unitVariant⟩
  | newtypeStruct datum =>
    rcases key_cases datum with ⟨text, hkey, hnames⟩ | ⟨hkey, hnone⟩
    · exact .inl ⟨text, hkey, .newtypeStruct hnames⟩
    · refine .inr ⟨hkey, fun text h => ?_⟩
      cases h with
      | newtypeStruct h => exact hnone text h
  | _ => exact .inr ⟨rfl, nofun⟩

/-- Asking for a key is one call. -/
theorem outcome_key (limit : Nat) (k : Shape) : Outcome limit [.key k] k.Names k.key := by
  rcases key_cases k with ⟨text, hkey, hnames⟩ | ⟨hkey, hnone⟩
  · have hpasses : (Call.key k).Passes limit := by
      intro e h
      cases h with
      | key hnone => exact hnone text hnames
    rw [hkey]
    exact ⟨List.forall_mem_singleton.mpr hpasses, hnames⟩
  · rw [hkey]
    exact .here (.key hnone)

/-! ## §3 Members so far -/

/-- Storing in an association list is storing in its rows. -/
theorem storeContents_listed {o : Object Bytes Value} (h : o.Listed) (key : Bytes) (v : Value) :
    (storeContents o key v).rows = (o.rows.put (.owned key) v).2 ∧
      (storeContents o key v).Listed := by
  obtain ⟨hput, hlisted⟩ := h.insert (.owned key) v
  exact ⟨congrArg Prod.snd hput, hlisted⟩

/-- An object that holds some members so far, stored in order. -/
structure Holds (o : Object Bytes Value) (members : List (Bytes × Value)) : Prop where
  listed : o.Listed
  rows : o.rows = gathered members

theorem holds_empty : Holds .empty [] := ⟨Object.listed_empty, rfl⟩

theorem keys_gathered (members : List (Bytes × Value)) :
    Rows.keys (gathered members) = (members.map (·.1)).eraseDups := by
  rw [gathered, Rows.keys, List.map_map]
  exact List.map_id _

/-- The latest value of a key is that of some member, or null where there is none. -/
theorem forall_mem_gathered {P : Value → Prop} {members : List (Bytes × Value)} (hnull : P .null)
    (h : ∀ member ∈ members, P member.2) : ∀ row ∈ gathered members, P row.2 := by
  refine List.forall_mem_map.mpr fun key _ => ?_
  change P (latest members key)
  rw [latest]
  cases hlookup : members.reverse.lookup key with
  | none => exact hnull
  | some v =>
    obtain ⟨before, after, hsplit, -⟩ := List.lookup_eq_some_iff.mp hlookup
    exact h (key, v) (List.mem_reverse.mp (hsplit ▸ by simp))

theorem latest_append (members : List (Bytes × Value)) (key : Bytes) (v : Value) (k : Bytes) :
    latest (members ++ [(key, v)]) k = if k = key then v else latest members k := by
  rw [latest, List.reverse_append, List.reverse_singleton, List.singleton_append, List.lookup_cons]
  by_cases hk : k = key
  · simp [hk]
  · simp [hk, latest, beq_eq_false_iff_ne.mpr hk]

/-- A member that is stored comes after the others. -/
theorem Holds.store {o : Object Bytes Value} {members : List (Bytes × Value)} (h : Holds o members)
    (key : Bytes) (v : Value) : Holds (storeContents o key v) (members ++ [(key, v)]) := by
  obtain ⟨hrows, hlisted⟩ := storeContents_listed h.listed key v
  have hkeys : o.rows.keys = (members.map (·.1)).eraseDups := by rw [h.rows, keys_gathered]
  have hdistinct := h.listed.distinct
  rw [hkeys] at hdistinct
  refine ⟨hlisted, ?_⟩
  rw [hrows, h.rows, gathered, gathered, Rows.put_map _ key v hdistinct, List.map_append,
    List.map_singleton, List.eraseDups_append]
  simp only [latest_append, List.mem_eraseDups]
  congr 1
  by_cases hmem : key ∈ members.map (·.1)
  · simp [hmem, List.removeAll]
  · simp [hmem, List.removeAll, List.eraseDups_cons]

/-! ## §4 Whole shapes -/

theorem encodeScalar_denotes (depth : Nat) (code : UInt32) :
    Denotes depth (.char code) (.string (.owned (Utf8.encodeScalar code.toNat))) := by
  rw [Utf8.encodeScalar]
  split
  · rename_i hscalar
    exact .char hscalar
  · rename_i hscalar
    exact .replaced (Bool.not_eq_true _ ▸ hscalar)

mutual

/-- The outcome of encoding a shape at a depth. -/
theorem contentsAt_outcome (limit depth : Nat) (s : Shape) :
    Outcome limit (s.calls depth) (s.Denotes depth) (s.contentsAt limit depth) := by
  cases s with
  | bool b => exact .ok .bool
  | int type n => exact .ok (.int ((toInt_modEq_iff ..).mpr rfl))
  | f32 x => exact .ok .f32
  | f64 x => exact .ok .f64
  | char code => exact .ok (encodeScalar_denotes depth code)
  | text content => exact .ok .text
  | bytes content =>
    refine Outcome.opened (.ok ?_)
    simp only [Value.ofInt, Int64.ofInt_eq_ofNat]
    exact .bytes
  | unit => exact .ok .unit
  | unitStruct => exact .ok .unitStruct
  | absent => exact .ok .absent
  | present datum =>
    rw [contentsAt, calls]
    exact (contentsAt_outcome limit depth datum).imp fun _ => .present
  | newtypeStruct datum =>
    rw [contentsAt, calls]
    exact (contentsAt_outcome limit depth datum).imp fun _ => .newtypeStruct
  | unitVariant name => exact .ok .unitVariant
  | newtypeVariant name datum =>
    exact .opened ((contentsAt_outcome limit (depth + 1) datum).map fun _ => .newtypeVariant)
  | seq elements =>
    exact .opened ((contentsElements_outcome limit (depth + 1) elements).map fun _ => .seq)
  | tuple elements =>
    exact .opened ((contentsElements_outcome limit (depth + 1) elements).map fun _ => .tuple)
  | tupleStruct elements =>
    exact .opened ((contentsElements_outcome limit (depth + 1) elements).map fun _ => .tupleStruct)
  -- The payload of these variants has a container of its own.
  | tupleVariant name elements =>
    exact .opened (.opened
      ((contentsElements_outcome limit (depth + 2) elements).map fun _ => .tupleVariant))
  | map entries =>
    refine .opened ((contentsEntries_outcome limit (depth + 1) entries holds_empty).map ?_)
    rintro o ⟨members, hmembers, hholds⟩
    rw [hholds.rows]
    exact .map hmembers
  | struct fields =>
    refine .opened ((contentsFields_outcome limit (depth + 1) fields holds_empty).map ?_)
    rintro o ⟨members, hmembers, hholds⟩
    rw [hholds.rows]
    exact .struct hmembers
  | structVariant name fields =>
    refine .opened (.opened ((contentsFields_outcome limit (depth + 2) fields holds_empty).map ?_))
    rintro o ⟨members, hmembers, hholds⟩
    rw [hholds.rows]
    exact .structVariant hmembers
  | depth => exact .ok (.depth ((toInt_modEq_iff ..).mpr rfl))

theorem contentsElements_outcome (limit depth : Nat) (elements : List Shape) :
    Outcome limit (callsOfElements depth elements) (DenotesEach depth elements)
      (contentsElements limit depth elements) := by
  cases elements with
  | nil => exact .ok .nil
  | cons datum elements =>
    refine (contentsAt_outcome limit depth datum).bind fun v hv => ?_
    rw [← List.append_nil (callsOfElements depth elements)]
    exact (contentsElements_outcome limit depth elements).bind fun vs hvs => .ok (.cons hv hvs)

/-- The entries of a map are added to the members that were stored before. -/
theorem contentsEntries_outcome (limit depth : Nat) (entries : List (Shape × Shape))
    {o : Object Bytes Value} {before : List (Bytes × Value)} (ho : Holds o before) :
    Outcome limit (callsOfEntries depth entries)
      (fun o => ∃ members, DenotesEntries depth entries members ∧ Holds o (before ++ members))
      (contentsEntries limit depth o entries) := by
  cases entries with
  | nil => exact .ok ⟨[], .nil, (List.append_nil before).symm ▸ ho⟩
  | cons entry entries =>
    obtain ⟨k, datum⟩ := entry
    refine (outcome_key limit k).bind fun text hnames => ?_
    refine (contentsAt_outcome limit depth datum).bind fun v hv => ?_
    refine (contentsEntries_outcome limit depth entries (ho.store text v)).imp ?_
    rintro o ⟨members, hmembers, hholds⟩
    exact ⟨(text, v) :: members, .cons hnames hv hmembers, List.append_cons before .. ▸ hholds⟩

/-- So are the fields of a struct. -/
theorem contentsFields_outcome (limit depth : Nat) (fields : List (Bytes × Shape))
    {o : Object Bytes Value} {before : List (Bytes × Value)} (ho : Holds o before) :
    Outcome limit (callsOfFields depth fields)
      (fun o => ∃ members, DenotesFields depth fields members ∧ Holds o (before ++ members))
      (contentsFields limit depth o fields) := by
  cases fields with
  | nil => exact .ok ⟨[], .nil, (List.append_nil before).symm ▸ ho⟩
  | cons field fields =>
    obtain ⟨name, datum⟩ := field
    refine (contentsAt_outcome limit depth datum).bind fun v hv => ?_
    refine (contentsFields_outcome limit depth fields (ho.store name v)).imp ?_
    rintro o ⟨members, hmembers, hholds⟩
    exact ⟨(name, v) :: members, .cons hv hmembers, List.append_cons before .. ▸ hholds⟩

end

theorem Outcome.ok_iff {cs : List Call} {P : α → Prop} {x : Except EncodeError α}
    (h : Outcome limit cs P x) (hunique : ∀ a b, P a → P b → a = b) (a : α) :
    x = .ok a ↔ (∀ c ∈ cs, c.Passes limit) ∧ P a := by
  constructor
  · rintro rfl
    exact h
  · rintro ⟨hpasses, ha⟩
    cases x with
    | error e => exact absurd hpasses (FirstFailure.not_passes h)
    | ok b => rw [hunique b a h.2 ha]

theorem Outcome.error_iff {cs : List Call} {P : α → Prop} {x : Except EncodeError α}
    (h : Outcome limit cs P x) (e : EncodeError) : x = .error e ↔ FirstFailure limit cs e := by
  constructor
  · rintro rfl
    exact h
  · intro hfailure
    cases x with
    | error e' => rw [FirstFailure.eq h hfailure]
    | ok a => exact absurd h.1 hfailure.not_passes

end Shape

/-- Encoding a shape gives its structural meaning if none of its calls fails, and otherwise the
failure of the first one that does, in depth-first order. -/
theorem encode_eq_iff (requested : Nat) (s : Shape) :
    (∀ v, encode requested s = .ok v ↔
      (∀ c ∈ s.calls 0, c.Passes (effectiveDepth requested)) ∧ s.Denotes 0 v) ∧
    ∀ e, encode requested s = .error e ↔
      Shape.FirstFailure (effectiveDepth requested) (s.calls 0) e := by
  have houtcome := Shape.contentsAt_outcome (effectiveDepth requested) 0 s
  rw [← encode_eq_contentsAt] at houtcome
  exact ⟨houtcome.ok_iff fun v w hv hw => hv.eq hw, houtcome.error_iff⟩

end JsonTree
