import JsonTree.Error.Fault
import Mathlib.Data.List.Induction

/-!
# Lines and columns

The place of an offset is found by moving past the bytes before it. Its line tells how many line
feeds those are, and its column how many bytes follow the last of them. On one line each byte adds a
column, and no line is counted twice, so a line and a column belong to one offset only.

## Main definitions

- `Bytes.onLine`: the bytes of a text behind its last line feed.

## Main statements

- `Position.ofOffset_eq`: the line, the column and the offset of a place.
- `Position.offset_eq`: a line and a column belong to one offset.
-/

namespace JsonTree

/-- The bytes behind the last line feed, or all of them where there is none. The last one comes
first. -/
def Bytes.onLine (bs : Bytes) : Bytes := bs.reverse.takeWhile (· != Byte.lineFeed)

namespace Bytes

/-- Bytes without a line feed stay on the line. -/
theorem length_onLine_append {bs more : Bytes} (h : Byte.lineFeed ∉ more) :
    (onLine (bs ++ more)).length = (onLine bs).length + more.length := by
  have hall : ∀ b ∈ more.reverse, (b != Byte.lineFeed) = true := by
    intro b hb
    rw [bne_iff_ne]
    rintro rfl
    exact h (List.mem_reverse.mp hb)
  rw [onLine, List.reverse_append, List.takeWhile_append_of_pos hall, List.length_append,
    List.length_reverse, Nat.add_comm, onLine]

theorem onLine_append_lineFeed (bs : Bytes) : onLine (bs ++ [Byte.lineFeed]) = [] := by
  rw [onLine, List.reverse_append]
  rfl

end Bytes

namespace Position

/-- Moving past some bytes counts them, their line feeds, and those behind the last line feed. -/
theorem foldl_advance (bs : Bytes) :
    bs.foldl advance ⟨1, 1, 0⟩ =
      ⟨1 + bs.count Byte.lineFeed, 1 + bs.onLine.length, bs.length⟩ := by
  -- The last byte decides about the column, so the induction is from the end.
  induction bs using List.reverseRecOn with
  | nil => rfl
  | append_singleton bs b ih =>
    rw [List.foldl_append, ih, List.foldl_cons, List.foldl_nil, advance, List.count_append,
      List.length_append]
    by_cases hb : b = Byte.lineFeed
    · subst hb
      rw [Bytes.onLine_append_lineFeed]
      rfl
    · have hother : Byte.lineFeed ∉ [b] := by simpa using Ne.symm hb
      rw [Bytes.length_onLine_append hother, List.count_eq_zero.mpr hother]
      simp [hb, Nat.add_assoc]

/-- The place of an offset of a text: how many line feeds there are before it, and how many bytes
behind the last of them. -/
theorem ofOffset_eq {input : Bytes} {offset : Nat} (h : offset ≤ input.length) :
    ofOffset input offset =
      ⟨1 + (input.take offset).count Byte.lineFeed, 1 + (Bytes.onLine (input.take offset)).length,
        offset⟩ := by
  rw [ofOffset, foldl_advance, List.length_take, Nat.min_eq_left h]

/-- The place of an offset of a text has that offset. -/
theorem offset_ofOffset {input : Bytes} {offset : Nat} (h : offset ≤ input.length) :
    (ofOffset input offset).offset = offset := by
  rw [ofOffset_eq h]

/-- Behind an offset no place has its line and its column again. -/
theorem eq_of_le {input : Bytes} {offset offset' : Nat} (hle : offset ≤ offset')
    (h' : offset' ≤ input.length)
    (hline : (ofOffset input offset).line = (ofOffset input offset').line)
    (hcolumn : (ofOffset input offset).column = (ofOffset input offset').column) :
    offset = offset' := by
  obtain ⟨n, rfl⟩ := Nat.exists_eq_add_of_le hle
  rw [ofOffset_eq (Nat.le_trans hle h'), ofOffset_eq h'] at hline hcolumn
  dsimp only at hline hcolumn
  rw [List.take_add, List.count_append] at hline
  -- On the same line there is no line feed between the two, so every byte there adds a column.
  have hnone : Byte.lineFeed ∉ (input.drop offset).take n := List.count_eq_zero.mp (by omega)
  rw [List.take_add, Bytes.length_onLine_append hnone, List.length_take, List.length_drop]
    at hcolumn
  omega

/-- A line and a column belong to one offset of a text. -/
theorem offset_eq {input : Bytes} {offset offset' : Nat} (h : offset ≤ input.length)
    (h' : offset' ≤ input.length)
    (hline : (ofOffset input offset).line = (ofOffset input offset').line)
    (hcolumn : (ofOffset input offset).column = (ofOffset input offset').column) :
    offset = offset' := by
  rcases Nat.le_total offset offset' with hle | hle
  · exact eq_of_le hle h' hline hcolumn
  · exact (eq_of_le hle h hline.symm hcolumn.symm).symm

end Position

end JsonTree
