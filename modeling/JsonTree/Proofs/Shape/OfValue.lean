import JsonTree.Proofs.Decode.Trees
import JsonTree.Proofs.Shape.Outcome

/-!
# Encoding values

A value has a shape of its own, and encoding that shape gives the value back with all text owned,
unless it is nested deeper than the limit. Decoding counts the same levels, so whatever was decoded
within a limit is encoded within it.

## Main definitions

- `Shape.upTo`: a result that is there as far as the limit allows.

## Main statements

- `Shape.contentsAt_ofValue`: encoding a value at a depth.
- `encode_ofValue`: encoding a value, encoding it again, and encoding what was decoded.
-/

namespace JsonTree

/-- A new key comes to the end. -/
theorem Rows.put_of_not_mem {σ α : Type} [Readable σ] {rows : Rows σ α} (key : Held σ) (value : α)
    (h : key.bytes ∉ rows.keys) : (rows.put key value).2 = rows ++ [(key, value)] := by
  have hnone : rows.first? key.bytes = none := by
    rw [← Option.not_isSome_iff_eq_none, first?_isSome_iff]
    exact h
  rw [put_eq_first?, hnone]

namespace Shape

/-! ## §1 As far as the limit allows -/

/-- A result that reaches down to a level: it is there if the level is within the limit. -/
def upTo {α : Type} (limit level : Nat) (a : α) : Except EncodeError α :=
  if level ≤ limit then .ok a else .error (.depthExceeded limit)

variable {α β : Type} {limit m n : Nat}

theorem ok_eq_upTo {a : α} (h : m ≤ limit) : .ok a = upTo limit m a := (if_pos h).symm

theorem map_upTo (f : α → β) (a : α) : f <$> upTo limit m a = upTo limit m (f a) := by
  unfold upTo
  split <;> rfl

/-- A step after another: together they reach down as far as the one that reaches further. -/
theorem upTo_bind {a : α} {f : α → Except EncodeError β} {b : β}
    (h : m ≤ limit → f a = upTo limit n b) : (upTo limit m a >>= f) = upTo limit (max m n) b := by
  by_cases hm : m ≤ limit
  · rw [← ok_eq_upTo hm]
    change f a = _
    simp only [h hm, upTo, max_le_iff, hm, true_and]
  · rw [upTo, upTo, if_neg hm, if_neg fun hmax => hm ((le_max_left m n).trans hmax)]
    rfl

/-- A container reaches one level further down than its contents. -/
theorem descend_bind {depth : Nat} {f : Nat → Except EncodeError β} {b : β}
    (h : depth + 1 ≤ limit → f (depth + 1) = upTo limit (depth + 1 + n) b) :
    (descend limit depth >>= f) = upTo limit (depth + (n + 1)) b := by
  have hdescend : descend limit depth = upTo limit (depth + 1) (depth + 1) := by
    rw [descend, upTo, ← ite_not]
    simp only [Nat.not_lt]
  rw [hdescend, upTo_bind h, max_eq_right (Nat.le_add_right _ n), Nat.add_assoc, Nat.add_comm 1 n]

/-! ## §2 Values at a depth -/

mutual

/-- Encoding a value at a depth gives it back, detached, if its containers stay within the
limit. -/
theorem contentsAt_ofValue {limit depth : Nat} (v : Value) (hdepth : depth ≤ limit)
    (hdistinct : v.DistinctKeys) :
    (ofValue v).contentsAt limit depth = upTo limit (depth + v.nesting) v.detached := by
  cases v with
  | null | bool | f64 | string => exact ok_eq_upTo hdepth
  | i64 n =>
    rw [ofValue, contentsAt, Value.ofInt, Int64.ofInt_toInt]
    exact ok_eq_upTo hdepth
  | array elements =>
    rw [ofValue, contentsAt, Value.nesting]
    refine descend_bind fun hinner => ?_
    rw [contentsElements_ofElements elements hinner (Value.distinctKeys_array_iff.mp hdistinct)]
    exact map_upTo Value.array _
  | object rows =>
    obtain ⟨hkeys, hvalues⟩ := Value.distinctKeys_object_iff.mp hdistinct
    rw [ofValue, contentsAt, Value.nesting]
    refine descend_bind fun hinner => ?_
    have hrows := contentsEntries_ofRows rows hinner hvalues Object.listed_empty hkeys
    have hmap := congrArg (Value.object <$> ·) hrows
    simp only [Functor.map_map, map_upTo] at hmap
    exact hmap

theorem contentsElements_ofElements {limit depth : Nat} (elements : List Value)
    (hdepth : depth ≤ limit) (hdistinct : ∀ v ∈ elements, v.DistinctKeys) :
    contentsElements limit depth (ofElements elements) =
      upTo limit (depth + Value.nestingOfElements elements)
        (Value.detachedElements elements) := by
  cases elements with
  | nil => exact ok_eq_upTo hdepth
  | cons v elements =>
    obtain ⟨hv, helements⟩ := List.forall_mem_cons.mp hdistinct
    rw [ofElements, contentsElements, contentsAt_ofValue v hdepth hv, Value.nestingOfElements,
      ← Nat.add_max_add_left]
    refine upTo_bind fun _ => ?_
    rw [contentsElements_ofElements elements hdepth helements]
    exact map_upTo (v.detached :: ·) _

/-- The rows of a value come behind those that are stored already, because their keys are new. -/
theorem contentsEntries_ofRows {limit depth : Nat} (rows : List (Text × Value))
    (hdepth : depth ≤ limit) (hdistinct : ∀ row ∈ rows, row.2.DistinctKeys) {o : Object Bytes Value}
    (ho : o.Listed) (hkeys : (o.rows.keys ++ Rows.keys rows).Nodup) :
    Object.rows <$> contentsEntries limit depth o (ofRows rows) =
      upTo limit (depth + Value.nestingOfRows rows) (o.rows ++ Value.detachedRows rows) := by
  cases rows with
  | nil =>
    rw [Value.detachedRows, List.append_nil]
    exact ok_eq_upTo hdepth
  | cons row rows =>
    obtain ⟨key, v⟩ := row
    obtain ⟨hv, hrows⟩ := List.forall_mem_cons.mp hdistinct
    -- The key is new, so its row comes to the end and the keys behind it are still new.
    have hnew : key.bytes ∉ o.rows.keys := fun hmem =>
      List.disjoint_of_nodup_append hkeys hmem List.mem_cons_self
    obtain ⟨hstored, hlisted⟩ := storeContents_listed ho key.bytes v.detached
    rw [Rows.put_of_not_mem (.owned key.bytes) v.detached hnew] at hstored
    have hkeys' : ((storeContents o key.bytes v.detached).rows.keys ++ Rows.keys rows).Nodup := by
      rw [hstored, Rows.keys_append, List.append_assoc]
      exact hkeys
    have hothers := contentsEntries_ofRows rows hdepth hrows hlisted hkeys'
    rw [hstored, List.append_assoc] at hothers
    rw [ofRows, contentsEntries, Value.nestingOfRows, ← Nat.add_max_add_left]
    change Object.rows <$> ((ofValue v).contentsAt limit depth >>= fun w =>
      contentsEntries limit depth (storeContents o key.bytes w) (ofRows rows)) = _
    rw [contentsAt_ofValue v hdepth hv, map_bind]
    exact upTo_bind fun _ => hothers

end

end Shape

/-! ## §3 Whole values -/

/-- Encoding a value whose objects have distinct keys succeeds exactly if its containers are nested
within the limit. It gives the same value with all text owned, which is encoded as itself, and it
otherwise fails because of the depth. Whatever was decoded within a limit is encoded within it, as
what decoding with owned text gives. -/
theorem encode_ofValue (requested : Nat) :
    (∀ v : Value, v.DistinctKeys →
      encode requested (.ofValue v) =
        if v.nesting ≤ effectiveDepth requested then .ok v.detached
        else .error (.depthExceeded (effectiveDepth requested))) ∧
    (∀ v w : Value, v.DistinctKeys → encode requested (.ofValue v) = .ok w →
      encode requested (.ofValue w) = .ok w) ∧
    ∀ (form : Representation) (text : Bytes) (v : Value), decode form requested text = .ok v →
      ∃ w, encode requested (.ofValue v) = .ok w ∧ decode .owned requested text = .ok w := by
  have hencode : ∀ v : Value, v.DistinctKeys → encode requested (.ofValue v) =
      if v.nesting ≤ effectiveDepth requested then .ok v.detached
      else .error (.depthExceeded (effectiveDepth requested)) := by
    intro v hv
    have hroot := Shape.contentsAt_ofValue v (Nat.zero_le (effectiveDepth requested)) hv
    rwa [Nat.zero_add, ← encode_eq_contentsAt] at hroot
  refine ⟨hencode, ?_, ?_⟩
  · intro v w hv hw
    rw [hencode v hv] at hw
    split at hw
    · rename_i hnesting
      cases hw
      rw [hencode v.detached ((Value.distinctKeys_detached v).mpr hv), Value.nesting_detached,
        if_pos hnesting, Value.detached_detached]
    · cases hw
  · intro form text v hdecode
    refine ⟨v.detached, ?_, decode_owned_of_ok hdecode⟩
    rw [hencode v (decode_distinctKeys hdecode), if_pos (decode_nesting_le hdecode)]

/-- Two levels of containers: within a limit of two, and one too many for a limit of one. -/
theorem encode_ofValue_nested :
    (Value.object [(.borrowed [97], .array [.string (.borrowed [98])])]).DistinctKeys ∧
      encode 2 (.ofValue (.object [(.borrowed [97], .array [.string (.borrowed [98])])])) =
        .ok (.object [(.owned [97], .array [.string (.owned [98])])]) ∧
      encode 1 (.ofValue (.object [(.borrowed [97], .array [.string (.borrowed [98])])])) =
        .error (.depthExceeded 1) ∧
      encode 2 (.ofValue (.object [(.owned [97], .array [.string (.owned [98])])])) =
        .ok (.object [(.owned [97], .array [.string (.owned [98])])]) ∧
      decode .borrowed 2 [91, 91, 34, 98, 34, 93, 93] =
        .ok (.array [.array [.string (.borrowed [98])]]) ∧
      ∃ w, encode 2 (.ofValue (.array [.array [.string (.borrowed [98])]])) = .ok w ∧
        decode .owned 2 [91, 91, 34, 98, 34, 93, 93] = .ok w := by
  have hdistinct :
      (Value.object [(.borrowed [97], .array [.string (.borrowed [98])])]).DistinctKeys :=
    Value.distinctKeys_object_iff.mpr ⟨by decide, by simp⟩
  have hdecode : decode .borrowed 2 [91, 91, 34, 98, 34, 93, 93] =
      .ok (.array [.array [.string (.borrowed [98])]]) := rfl
  obtain ⟨hencode, hagain, hdecoded⟩ := encode_ofValue 2
  have hwithin := (hencode _ hdistinct).trans (if_pos (by decide))
  exact ⟨hdistinct, hwithin, ((encode_ofValue 1).1 _ hdistinct).trans (if_neg (by decide)),
    hagain _ _ hdistinct hwithin, hdecode, hdecoded _ _ _ hdecode⟩

end JsonTree
