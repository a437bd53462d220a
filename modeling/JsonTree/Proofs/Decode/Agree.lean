import JsonTree.Proofs.Decode.Document
import JsonTree.Proofs.Live.Contents

/-!
# Agreement of the two representations

A text is decoded to one tree or to one error, whichever way its strings and keys are held. The
trees are the same up to ownership, and because the grammar denotes proper trees only, all
comparisons between them succeed.

## Main statements

- `Grammar.Spells.proper`: every tree that the grammar denotes is proper.
- `decode_agree`: decoding with owned and with borrowed text comes to the same.
-/

namespace JsonTree

open Grammar

/-! ## §1 Trees of the grammar -/

namespace Grammar

theorem Denotes.proper {l : Literal} {n : Number} (h : Denotes l n) :
    (Value.ofNumber n).Proper := by
  cases h with
  | integer => trivial
  | double _ _ hnear =>
    have hfinite := hnear.finite
    simp only [Value.ofNumber, Value.Proper, Binary64.isNaN, decide_eq_false_iff_not]
    omega

mutual

/-- Every tree that the grammar denotes is proper. -/
theorem Spells.proper {depth : Nat} {bs : Bytes} {v : Value} (h : Spells depth bs v) :
    v.Proper := by
  cases h with
  | number _ hdenotes => exact hdenotes.proper
  | array helements => exact helements.proper
  | object hmembers =>
    exact ⟨Rows.keys_lastOfEach_nodup _, Value.properRows_lastOfEach hmembers.proper⟩
  | emptyObject => exact ⟨List.nodup_nil, trivial⟩
  | null | true | false | string | emptyArray => trivial
termination_by 3 * bs.length
decreasing_by all_goals simp only [List.length_append, List.length_cons]; omega

theorem Padded.proper {depth : Nat} {bs : Bytes} {v : Value} (h : Padded depth bs v) :
    v.Proper := by
  cases h with
  | mk _ hspells _ => exact hspells.proper
termination_by 3 * bs.length + 1
decreasing_by simp only [List.length_append]; omega

theorem Elements.proper {depth : Nat} {bs : Bytes} {elements : List Value}
    (h : Elements depth bs elements) : Value.ProperElements elements := by
  cases h with
  | last hpadded => exact ⟨hpadded.proper, trivial⟩
  | more hpadded helements => exact ⟨hpadded.proper, helements.proper⟩
termination_by 3 * bs.length + 2
decreasing_by all_goals grind [List.length_append]

theorem Members.proper {depth : Nat} {bs : Bytes} {rows : List (Text × Value)}
    (h : Members depth bs rows) : Value.ProperRows rows := by
  cases h with
  | last _ hpadded => exact ⟨hpadded.proper, trivial⟩
  | more _ hpadded hmembers => exact ⟨hpadded.proper, hmembers.proper⟩
termination_by 3 * bs.length + 2
decreasing_by all_goals simp only [List.length_append, List.length_cons]; omega

end

end Grammar

/-! ## §2 One outcome -/

/-- Live values with equal contents are equal, unless an index that is searched is stale. -/
theorem Live.equals_of_contents {v w : Live} (hw : w.Fresh)
    (h : v.contents.equals w.contents = true) : v.equals w = true :=
  (equals_eq_contents v w hw).trans h

/-- Decoding with owned and with borrowed text comes to the same. Either both give trees that differ
in nothing but ownership, and each of the two equals itself and the other; or both report the same
error. So it is for the live values, whatever buffers the text is in, where each object that is
searched is asked through its index. -/
theorem decode_agree (requested : Nat) (text : Bytes) :
    (∃ o b, decode .owned requested text = .ok o ∧ decode .borrowed requested text = .ok b ∧
      o = b.detached ∧
      (o.equals o = true ∧ o.equals b = true ∧ b.equals o = true ∧ b.equals b = true) ∧
      ∀ m n, ∃ p q, Live.decode .owned m requested text = .ok p ∧
        Live.decode .borrowed n requested text = .ok q ∧ p.contents = o ∧ q.contents = b ∧
        p.equals p = true ∧ p.equals q = true ∧ q.equals p = true ∧ q.equals q = true) ∨
    ∃ e, decode .owned requested text = .error e ∧ decode .borrowed requested text = .error e ∧
      ∀ form n, Live.decode form n requested text = .error e := by
  have howned := decode_owned requested text
  have hlive := fun form n => Live.contents_decode form n requested text
  cases hborrowed : decode .borrowed requested text with
  | error e =>
    rw [hborrowed] at howned
    refine .inr ⟨e, howned, rfl, fun form n => map_eq_error_iff.mp ((hlive form n).trans ?_)⟩
    cases form
    · exact howned
    · exact hborrowed
  | ok b =>
    rw [hborrowed] at howned
    have hinput := (decode_eq_ok_iff ..).mp howned
    have hdocument := (Decode.readInput_owned_eq_ok_iff ..).mp hinput
    have hself := Value.equals_self b.detached hdocument.proper
    -- All four comparisons are the same one, up to detaching a side.
    have hleft := Value.equals_detached b.detached b
    have hright := Value.equals_detached b b.detached
    have hboth := Value.equals_detached b b
    rw [Value.detached_detached, hself] at hleft hright
    rw [hself] at hboth
    refine .inl ⟨b.detached, b, howned, rfl, rfl,
      ⟨hself, hleft.symm, hright.symm, hboth.symm⟩, fun m n => ?_⟩
    obtain ⟨p, hp, hpcontents⟩ := map_eq_ok_iff.mp ((hlive .owned m).trans howned)
    obtain ⟨q, hq, hqcontents⟩ := map_eq_ok_iff.mp ((hlive .borrowed n).trans hborrowed)
    have hpfresh := (Live.decode_listed hp).fresh
    have hqfresh := (Live.decode_listed hq).fresh
    refine ⟨p, q, hp, hq, hpcontents, hqcontents, ?_, ?_, ?_, ?_⟩
    · exact Live.equals_of_contents hpfresh (by rw [hpcontents, hself])
    · exact Live.equals_of_contents hqfresh (by rw [hpcontents, hqcontents, ← hleft])
    · exact Live.equals_of_contents hpfresh (by rw [hpcontents, hqcontents, ← hright])
    · exact Live.equals_of_contents hqfresh (by rw [hqcontents, ← hboth])

end JsonTree
