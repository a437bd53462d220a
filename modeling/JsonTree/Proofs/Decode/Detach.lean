import JsonTree.Proofs.Live.Decode

/-!
# The two representations

Reading with owned text is reading with borrowed text and then detaching the value. This holds step
by step, with the same cursor and the same faults, because no step looks at who owns a text: keys
are compared by their bytes, and so the same members are kept.

## Main statements

- `Value.lastOfEach_detachedRows`: the last row of each key is the same row after detaching.
- `Decode.readValue_owned`: one value, at any cursor.
- `Decode.readInput_owned`: one text.
-/

namespace JsonTree

/-! ## §1 Detaching -/

namespace Value

theorem hasKey_detachedRows (rows : List (Text × Value)) (key : Bytes) :
    Rows.hasKey (detachedRows rows) key = Rows.hasKey rows key := by
  induction rows with
  | nil => rfl
  | cons row rows ih =>
    obtain ⟨text, v⟩ := row
    unfold Rows.hasKey at ih ⊢
    rw [detachedRows, List.any_cons, List.any_cons, ih]
    rfl

/-- The last row of each key is the same row after detaching. -/
theorem lastOfEach_detachedRows (rows : List (Text × Value)) :
    Rows.lastOfEach (detachedRows rows) = detachedRows (Rows.lastOfEach rows) := by
  induction rows with
  | nil => rfl
  | cons row rows ih =>
    obtain ⟨text, v⟩ := row
    have hbytes : text.detached.bytes = text.bytes := rfl
    -- Whether a row is kept depends on the bytes of the later keys, which are the same.
    rw [detachedRows, Rows.lastOfEach, Rows.lastOfEach, hbytes, hasKey_detachedRows, ih]
    cases Rows.hasKey rows text.bytes <;> rfl

theorem detached_ofNumber (n : Number) : (ofNumber n).detached = ofNumber n := by
  cases n <;> rfl

theorem detached_object_collect (rows : List (Text × Value)) :
    (object (Object.collect rows).rows).detached =
      object (Object.collect (detachedRows rows)).rows := by
  rw [Object.collect_rows, Object.collect_rows, lastOfEach_detachedRows]
  rfl

end Value

/-! ## §2 Reading in step -/

namespace Decode

/-- What was read, detached, at the same cursor. -/
def detachedAt {α : Type} (detach : α → α) : α × Cursor → α × Cursor := fun (x, c) => (detach x, c)

theorem readAtom_owned (root : Bool) (b : UInt8) (c : Cursor) :
    readAtom .owned root b c = (readAtom .borrowed root b c).map Value.detached := by
  unfold readAtom
  by_cases hminus : (b == Byte.minus) = true
  · rw [if_pos hminus, if_pos hminus]
    cases c.number root true with
    | error fault => rfl
    | ok n => exact congrArg Except.ok (Value.detached_ofNumber n).symm
  rw [if_neg hminus, if_neg hminus]
  by_cases hdigit : Byte.isDigit b = true
  · rw [if_pos hdigit, if_pos hdigit]
    cases c.number root false with
    | error fault => rfl
    | ok n => exact congrArg Except.ok (Value.detached_ofNumber n).symm
  rw [if_neg hdigit, if_neg hdigit]
  by_cases hquote : (b == Byte.quote) = true
  · rw [if_pos hquote, if_pos hquote]
    cases c.string <;> rfl
  rw [if_neg hquote, if_neg hquote]
  -- The words are their own values, and the other bytes are at fault.
  by_cases hnull : (b == 0x6E) = true
  · rw [if_pos hnull]
    rfl
  rw [if_neg hnull]
  by_cases htrue : (b == 0x74) = true
  · rw [if_pos htrue]
    rfl
  rw [if_neg htrue]
  by_cases hfalse : (b == 0x66) = true
  · rw [if_pos hfalse]
    rfl
  rw [if_neg hfalse]
  rfl

variable {owned borrowed : Reader Value}

theorem readElements_owned (h : ∀ c, owned c = (borrowed c).map (detachedAt Value.detached))
    (n : Nat) (c : Cursor) :
    readElements owned n c =
      (readElements borrowed n c).map (detachedAt Value.detachedElements) := by
  induction n generalizing c with
  | zero => rfl
  | succ n ih =>
    rw [readElements, readElements, h]
    cases borrowed c with
    | error fault => rfl
    | ok found =>
      obtain ⟨v, c⟩ := found
      have hrest := ih c.skip
      -- Both readers stand at the same cursor after the element.
      simp only [Except.map, detachedAt, bind, Except.bind]
      rw [hrest]
      cases readElements borrowed n c.skip <;> rfl

theorem readMembers_owned (h : ∀ c, owned c = (borrowed c).map (detachedAt Value.detached))
    (n : Nat) (c : Cursor) :
    readMembers .owned owned n c =
      (readMembers .borrowed borrowed n c).map (detachedAt Value.detachedRows) := by
  induction n generalizing c with
  | zero => rfl
  | succ n ih =>
    rw [readMembers, readMembers]
    cases c.skip.string with
    | error fault => rfl
    | ok key =>
      simp only [bind, Except.bind]
      rw [h]
      cases borrowed c.skip.skip with
      | error fault => rfl
      | ok found =>
        obtain ⟨v, c⟩ := found
        have hrest := ih c.skip
        simp only [Except.map, detachedAt]
        rw [hrest]
        cases readMembers .borrowed borrowed n c.skip <;> rfl

/-- One value, at any cursor. -/
theorem readValue_owned (levels : Nat) (root : Bool) (c : Cursor) :
    readValue .owned levels root c =
      (readValue .borrowed levels root c).map (detachedAt Value.detached) := by
  induction levels generalizing root c with
  | zero =>
    by_cases harray : c.skip.byte = Byte.openArray
    · rw [readValue_of_array harray, readValue_of_array harray]
      rfl
    by_cases hobject : c.skip.byte = Byte.openObject
    · rw [readValue_of_object hobject, readValue_of_object hobject]
      rfl
    rw [readValue_of_atom harray hobject, readValue_of_atom harray hobject, readAtom_owned]
    cases readAtom .borrowed root c.skip.byte c.skip <;> rfl
  | succ levels ih =>
    by_cases harray : c.skip.byte = Byte.openArray
    · rw [readValue_of_array harray, readValue_of_array harray]
      by_cases hcount : c.skip.count = 0
      · simp only [hcount, if_true]
        rfl
      · simp only [hcount, if_false]
        rw [readElements_owned (ih false)]
        cases readElements (readValue .borrowed levels false) c.skip.count c.skip <;> rfl
    by_cases hobject : c.skip.byte = Byte.openObject
    · rw [readValue_of_object hobject, readValue_of_object hobject]
      by_cases hcount : c.skip.count = 0
      · simp only [hcount, if_true]
        rfl
      · simp only [hcount, if_false]
        rw [readMembers_owned (ih false)]
        cases readMembers .borrowed (readValue .borrowed levels false) c.skip.count c.skip with
        | error fault => rfl
        | ok found =>
          -- Detaching and keeping the last member of each key commute.
          have hcollect := Value.detached_object_collect found.1
          simp only [Except.map, detachedAt, hcollect]
    rw [readValue_of_atom harray hobject, readValue_of_atom harray hobject, readAtom_owned]
    cases readAtom .borrowed root c.skip.byte c.skip <;> rfl

/-- One text. -/
theorem readInput_owned (requested : Nat) (input : Bytes) :
    readInput .owned requested input =
      (readInput .borrowed requested input).map Value.detached := by
  unfold readInput
  cases Cursor.ofInput input with
  | error fault => rfl
  | ok c =>
    simp only [bind, Except.bind]
    rw [readValue_owned]
    cases readValue .borrowed (effectiveDepth requested) true c <;> rfl

end Decode

/-- Decoding with owned text is decoding with borrowed text and detaching the value. -/
theorem decode_owned (requested : Nat) (input : Bytes) :
    decode .owned requested input = (decode .borrowed requested input).map Value.detached := by
  rw [decode_eq_readInput, decode_eq_readInput, Decode.readInput_owned]
  cases Decode.readInput .borrowed requested input <;> rfl

end JsonTree
