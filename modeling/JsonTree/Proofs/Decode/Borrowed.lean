import JsonTree.Proofs.Decode.Document

/-!
# What decoded values borrow

A string is borrowed as it stands between its quotes. The tokens carry the rest of the input with
them, so the bytes of every borrowed text stand in the input where its slice has it, and the slice
names the buffer that was decoded from.

## Main definitions

- `Slice.Reads`: a slice that says what the buffer holds at its place.
- `Held.LiesIn`: text that borrows from one buffer alone.

## Main statements

- `Token.string_liesIn`: what a token lends stands behind its quote.
- `Live.decode_liesIn`: every borrowed text of a decoded value is a slice of the input.
-/

namespace JsonTree

/-! ## §1 What a token lends -/

/-- The slice says what a buffer with these bytes holds at its place. -/
def Slice.Reads (bs : Bytes) (s : Slice) : Prop :=
  ∃ before after, bs = before ++ s.bytes ++ after ∧ before.length = s.start

/-- Text that borrows from the buffer of one name alone, and says what that buffer holds if it holds
these bytes. -/
def Held.LiesIn (buffer : Nat) (bs : Bytes) (t : Held Slice) : Prop :=
  ∀ slice, t = .borrowed slice → slice.buffer = buffer ∧ slice.Reads bs

theorem Held.liesIn_owned (buffer : Nat) (bs bytes : Bytes) : (Held.owned bytes).LiesIn buffer bs :=
  nofun

/-- Without an escape, the text is what stands before the closing quote. -/
theorem Text.exists_of_read {start : Nat} {bs bytes : Bytes}
    (h : Text.read start bs = .ok (.borrowed bytes)) : ∃ b after, bs = bytes ++ b :: after := by
  rw [Text.read] at h
  split at h
  · cases h
  · rename_i b after hskip
    split at h
    · cases h
      exact ⟨b, after, hskip ▸ List.takeWhile_append_dropWhile.symm⟩
    · obtain ⟨_, -, h⟩ := bind_eq_ok_iff.mp h
      cases h

/-- In an input of tokens each one begins at its offset. -/
theorem Token.drop_offset_of_scan {input : Bytes} {ts : List Token}
    (hscan : Token.scan input = .ok ts) : ∀ t ∈ ts, input.drop t.offset = t.tail :=
  ((Token.scan_eq_ok_iff input ts).mp hscan).1.drop_offset

/-- What a token lends stands in the input, behind the quote that the token begins with. -/
theorem Token.string_liesIn {input : Bytes} {ts : List Token} (hscan : Token.scan input = .ok ts)
    {t : Token} (ht : t ∈ ts) {text : Text} (hread : t.string = .ok text) (buffer : Nat) :
    (Held.placed buffer (t.offset + 1) text).LiesIn buffer input := by
  intro slice hslice
  cases text with
  | owned bytes => cases hslice
  | borrowed bytes =>
    cases hslice
    obtain ⟨b, after, htail⟩ := Text.exists_of_read hread
    have hdrop : input.drop (t.offset + 1) = bytes ++ b :: after := by
      rw [← List.drop_drop, Token.drop_offset_of_scan hscan t ht, htail]
    have hlength := congrArg List.length hdrop
    rw [List.length_drop, List.length_append, List.length_cons] at hlength
    refine ⟨rfl, input.take (t.offset + 1), b :: after, ?_, List.length_take_of_le (by omega)⟩
    rw [List.append_assoc, ← hdrop, List.take_append_drop]

/-! ## §2 Decoded values -/

/-- Every borrowed text of a decoded value is a slice of the input, in the buffer that was decoded
from. -/
theorem Live.decode_liesIn {form : Representation} {buffer requested : Nat} {input : Bytes}
    {v : Live} (h : Live.decode form buffer requested input = .ok v) :
    v.EveryText (Held.LiesIn buffer input) := by
  have hdecode : SameOutcome (Live.Spells (Held.LiesIn buffer input))
      (Live.decode form buffer requested input)
      ((Decode.readInput form requested input).mapError (·.locate input)) :=
    Live.decode_sameOutcome fun c hc item hitem t ht => by
      obtain ⟨node, -, hscan, rfl⟩ := (Cursor.ofInput_eq_ok_iff input c).mp hc
      have hmem : item.token ∈ node.tokens := List.mem_map_of_mem hitem
      cases form with
      | owned => exact Held.liesIn_owned buffer input _
      | borrowed => exact Token.string_liesIn hscan hmem ht buffer
  rw [h] at hdecode
  obtain ⟨_, -, hv⟩ := hdecode.exists_of_ok
  exact hv.texts

end JsonTree
