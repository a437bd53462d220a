import JsonTree.Proofs.Decode.Agree
import JsonTree.Proofs.Value.Everywhere

/-!
# What trees are decoded to

A decoded tree keeps what the grammar promises, whoever owns its text: keys are distinct in all of
its objects, and its containers are nested no deeper than the limit allows.

## Main statements

- `Grammar.Spells.nesting_le`: the bound of a derivation bounds the nesting of its tree.
- `decode_owned_of_ok`: decoding again with owned text gives the same tree, detached.
- `decode_distinctKeys`, `decode_nesting_le`: what holds of every decoded tree.
-/

namespace JsonTree

open Grammar

theorem Value.nestingOfRows_lastOfEach_le (rows : List (Text × Value)) :
    nestingOfRows (Rows.lastOfEach rows) ≤ nestingOfRows rows := by
  have hrows : ∀ row ∈ rows, row.2.nesting ≤ nestingOfRows rows :=
    nestingOfRows_le_iff.mp (Nat.le_refl _)
  exact nestingOfRows_le_iff.mpr fun row hrow =>
    hrows row ((Rows.lastOfEach_sublist rows).subset hrow)

namespace Grammar

mutual

/-- The bound of a derivation bounds the nesting of its tree. -/
theorem Spells.nesting_le {depth : Nat} {bs : Bytes} {v : Value} (h : Spells depth bs v) :
    v.nesting ≤ depth := by
  cases h with
  | @number _ _ _ n _ _ => cases n <;> exact Nat.zero_le depth
  | array helements => exact Nat.succ_le_succ helements.nesting_le
  | object hmembers =>
    exact Nat.succ_le_succ
      ((Value.nestingOfRows_lastOfEach_le _).trans hmembers.nesting_le)
  | emptyArray | emptyObject => exact Nat.succ_le_succ (Nat.zero_le _)
  | null | true | false | string => exact Nat.zero_le depth
termination_by 3 * bs.length
decreasing_by all_goals simp only [List.length_append, List.length_cons]; omega

theorem Padded.nesting_le {depth : Nat} {bs : Bytes} {v : Value} (h : Padded depth bs v) :
    v.nesting ≤ depth := by
  cases h with
  | mk _ hspells _ => exact hspells.nesting_le
termination_by 3 * bs.length + 1
decreasing_by simp only [List.length_append]; omega

theorem Elements.nesting_le {depth : Nat} {bs : Bytes} {elements : List Value}
    (h : Elements depth bs elements) : Value.nestingOfElements elements ≤ depth := by
  cases h with
  | last hpadded => exact max_le hpadded.nesting_le (Nat.zero_le depth)
  | more hpadded helements => exact max_le hpadded.nesting_le helements.nesting_le
termination_by 3 * bs.length + 2
decreasing_by all_goals grind [List.length_append]

theorem Members.nesting_le {depth : Nat} {bs : Bytes} {rows : List (Text × Value)}
    (h : Members depth bs rows) : Value.nestingOfRows rows ≤ depth := by
  cases h with
  | last _ hpadded => exact max_le hpadded.nesting_le (Nat.zero_le depth)
  | more _ hpadded hmembers => exact max_le hpadded.nesting_le hmembers.nesting_le
termination_by 3 * bs.length + 2
decreasing_by all_goals simp only [List.length_append, List.length_cons]; omega

end

end Grammar

variable {form : Representation} {requested : Nat} {text : Bytes} {v : Value}

/-- Decoding again with owned text gives the same tree, detached. -/
theorem decode_owned_of_ok (h : decode form requested text = .ok v) :
    decode .owned requested text = .ok v.detached := by
  have howned := decode_owned requested text
  cases form with
  | borrowed => rw [howned, h]; rfl
  | owned =>
    -- The tree is detached already.
    obtain ⟨b, -, rfl⟩ := map_eq_ok_iff.mp (howned.symm.trans h)
    rw [h, Value.detached_detached]

/-- A decoded tree, detached, is what the grammar makes of the text. -/
theorem decode_document (h : decode form requested text = .ok v) :
    Grammar.Document (effectiveDepth requested) text v.detached := by
  rw [← Decode.readInput_owned_eq_ok_iff, ← decode_eq_ok_iff]
  exact decode_owned_of_ok h

/-- No object of a decoded tree repeats a key. -/
theorem decode_distinctKeys (h : decode form requested text = .ok v) : v.DistinctKeys := by
  rw [← Value.distinctKeys_detached]
  exact ((Value.proper_iff _).mp (decode_document h).proper).1

/-- The containers of a decoded tree are nested no deeper than the limit allows. -/
theorem decode_nesting_le (h : decode form requested text = .ok v) :
    v.nesting ≤ effectiveDepth requested := by
  rw [← Value.nesting_detached]
  exact (decode_document h).nesting_le

end JsonTree
