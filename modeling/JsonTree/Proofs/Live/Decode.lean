import JsonTree.Proofs.Decode.Walk
import JsonTree.Proofs.Live.Everywhere
import JsonTree.Proofs.Object.Values

/-!
# The walk that keeps everything

The decoder's walk carries a counter of open containers, gathers members in an object with room and
blocks, and notes where in the buffer a text stands. Reading level by level keeps nothing of this.
Both read the same contents from the same tokens, and the counter stands where it stood when a value
was read: every container that was opened was closed, empty ones included. So what the counter
allows is what the number of levels that are left allows.

What the walk gives is an association list wherever it is an object, and its texts are those of the
tokens.

## Main definitions

- `Decode.At`: where both walks stand.
- `Live.Spells`: a live value that says what was read.

## Main statements

- `Decode.parseValue_sameOutcome`: reading a value with the counter and with levels.
- `Decode.parseValue_eq_readValue`: the counter is the structural limit.
- `decode_eq_readInput`: decoding is reading level by level.
- `Live.contents_decode`, `Live.decode_listed`: what a decoded value says, in whatever buffer its
  text is, and its objects.
-/

namespace JsonTree

open Live (Spells SpellsRow)
open Outline (Item)

namespace Decode

/-! ## §1 Where both walks stand -/

/-- The tokens that a cursor has passed last, or has ahead, are among some items. -/
structure Within (items : List Item) (c : Cursor) : Prop where
  last : ∀ item, c.last = some item → item ∈ items
  rest : ∀ item ∈ c.rest, item ∈ items

theorem Within.skip {items : List Item} {c : Cursor} (h : Within items c) :
    Within items c.skip where
  last item hitem := h.rest item (List.mem_of_mem_head? hitem)
  rest item hitem := h.rest item (List.mem_of_mem_tail hitem)

theorem State.skip_cursor (s : State) : s.skip.cursor = s.cursor.skip := rfl

/-- The walk stands with so many containers open and at most so many tokens ahead. -/
structure At (items : List Item) (ahead depth : Nat) (s : State) : Prop where
  depth : s.depth = depth
  ahead : s.cursor.rest.length ≤ ahead
  within : Within items s.cursor

variable {items : List Item} {ahead depth : Nat} {s : State} {c : Cursor}

theorem At.skip (h : At items ahead depth s) : At items ahead depth s.skip where
  depth := h.depth
  ahead := by
    have hahead := h.ahead
    simp only [State.skip, Cursor.skip, List.length_tail]
    omega
  within := h.within.skip

/-- The first token of a value is behind the cursor when its parts are read. -/
theorem At.next (h : At items (ahead + 1) depth s) : At items ahead depth s.skip where
  depth := h.depth
  ahead := by
    have hahead := h.ahead
    simp only [State.skip, Cursor.skip, List.length_tail]
    omega
  within := h.within.skip

theorem At.mono {more : Nat} (h : At items ahead depth s) (hmore : ahead ≤ more) :
    At items more depth s := ⟨h.depth, Nat.le_trans h.ahead hmore, h.within⟩

/-- A container that was opened is closed. -/
theorem At.popDepth (h : At items ahead (depth + 1) s) : At items ahead depth s.popDepth where
  depth := by rw [State.popDepth, h.depth, Nat.add_sub_cancel]
  ahead := h.ahead
  within := h.within

/-! ## §2 Atoms -/

/-- The texts of some tokens, as they are placed and kept, have a property. -/
def Lends (r : Request) (T : Held Slice → Prop) (items : List Item) : Prop :=
  ∀ item ∈ items, ∀ t, item.token.string = .ok t →
    T (r.form.keep (.placed r.buffer (item.token.offset + 1) t))

theorem text_keep_placed (form : Representation) (buffer start : Nat) (t : Text) :
    (form.keep (Held.placed buffer start t)).text = form.keep t := by
  cases form <;> cases t <;> rfl

variable {r : Request} {T : Held Slice → Prop} (hlends : Lends r T items)
include hlends

theorem parseString_sameOutcome (hwithin : Within items c) :
    SameOutcome (fun t t' => t.text = r.form.keep t' ∧ T t) (parseString r c) c.string := by
  cases hlast : c.last with
  | none =>
    have hstring : c.string = .error (c.fault .unexpectedCharacter) := by rw [Cursor.string, hlast]
    rw [parseString, hstring]
    exact .error _
  | some item =>
    have hstring : c.string = item.token.string := by rw [Cursor.string, hlast]
    rw [parseString, hstring, hlast]
    cases htext : item.token.string with
    | error e => exact .error e
    | ok t => exact .ok ⟨text_keep_placed .., hlends item (hwithin.last item hlast) t htext⟩

theorem parseAtom_sameOutcome (hwithin : Within items c) (root : Bool) (b : UInt8) :
    SameOutcome (Spells T) (parseAtom r root b c) (readAtom r.form root b c) := by
  have hnumber : ∀ negative, SameOutcome (Spells T) (Live.ofNumber <$> c.number root negative)
      (Value.ofNumber <$> c.number root negative) := by
    intro negative
    cases c.number root negative with
    | error e => exact .error e
    | ok n => exact .ok (Live.spells_ofNumber n)
  have hstring : SameOutcome (Spells T) (Live.string <$> parseString r c)
      ((fun t => Value.string (r.form.keep t)) <$> c.string) := by
    refine (parseString_sameOutcome hlends hwithin).map fun t t' ht => ?_
    exact ⟨congrArg Value.string ht.1, Live.everyObject_of_nesting rfl,
      (Live.everyText_string_iff t).mpr ht.2⟩
  unfold parseAtom readAtom
  -- The two tell the atoms apart in the same way.
  split
  · exact hnumber true
  · split
    · exact hnumber false
    · split
      · exact hstring
      · split
        · exact .ok (Live.spells_of_nesting rfl nofun)
        · split
          · exact .ok (Live.spells_of_nesting rfl nofun)
          · split
            · exact .ok (Live.spells_of_nesting rfl nofun)
            · exact .error _

/-! ## §3 Elements and members -/

/-- Both walks read a value, and stand at one cursor behind it with the containers open that were
open before. -/
def Alike (items : List Item) (ahead depth : Nat) {α β : Type}
    (related : α → β → Prop) (x : α × State) (y : β × Cursor) : Prop :=
  related x.1 y.1 ∧ x.2.cursor = y.2 ∧ At items ahead depth x.2

omit hlends in
theorem Alike.behind {α β : Type} {related : α → β → Prop} {x : α × State} {y : β × Cursor}
    (h : Alike items ahead depth related x y) : Alike items (ahead + 1) depth related x y :=
  ⟨h.1, h.2.1, h.2.2.mono (Nat.le_succ ahead)⟩

section

variable {parse : Parser Live} {read : Reader Value}
  (hparse : ∀ s, At items ahead depth s →
    SameOutcome (Alike items ahead depth (Spells T)) (parse s) (read s.cursor))
include hparse

omit hlends in
theorem parseElements_sameOutcome (n : Nat) (h : At items ahead depth s) :
    SameOutcome (Alike items ahead depth (List.Forall₂ (Spells T)))
      (parseElements parse n s) (readElements read n s.cursor) := by
  induction n generalizing s with
  | zero => exact .ok ⟨.nil, rfl, h⟩
  | succ n ih =>
    refine (hparse s h).bind ?_
    rintro ⟨v, s⟩ ⟨x, _⟩ ⟨hv, rfl, hs⟩
    refine (ih hs.skip).bind ?_
    rintro ⟨vs, s⟩ ⟨xs, _⟩ ⟨hvs, rfl, hs⟩
    exact .ok ⟨.cons hv hvs, rfl, hs⟩

/-- The members that were gathered are those that were there and those that were read. -/
theorem parseMembers_sameOutcome (n : Nat) (o : Object Slice Live) (h : At items ahead depth s) :
    SameOutcome
      (Alike items ahead depth fun gathered rows =>
        ∃ added : Rows Slice Live,
          gathered = added.foldl (fun o row => o.append row.1 row.2) o ∧
            List.Forall₂ (SpellsRow T) added rows)
      (parseMembers r parse n o s) (readMembers r.form read n s.cursor) := by
  induction n generalizing s o with
  | zero => exact .ok ⟨⟨[], rfl, .nil⟩, rfl, h⟩
  | succ n ih =>
    refine (parseString_sameOutcome hlends h.skip.within).bind fun key key' hkey => ?_
    refine (hparse s.skip.skip h.skip.skip).bind ?_
    rintro ⟨v, s⟩ ⟨x, _⟩ ⟨hv, rfl, hs⟩
    -- The rest is gathered in the object that has one more row.
    refine (ih (o.append key v) hs.skip).bind_ok_right ?_
    rintro ⟨gathered, s⟩ ⟨rows, _⟩ ⟨⟨added, rfl, hadded⟩, rfl, hs⟩
    exact ⟨⟨(key, v) :: added, rfl, .cons ⟨hkey.1, hkey.2, hv⟩ hadded⟩, rfl, hs⟩

end

omit hlends in
/-- The object that was gathered loses the rows whose keys come again, and only those. -/
theorem spells_finalize {rows : Rows Slice Live} {read : List (Text × Value)} (n : Nat)
    (h : List.Forall₂ (SpellsRow T) rows read) :
    Spells T
      (.ofObject (rows.foldl (fun o row => o.append row.1 row.2) (Object.empty.reserve n)).finalize)
      (.object (Object.collect read).rows) := by
  have hmembers : rows.map (Prod.map Held.text Live.contents) = read ∧
      (∀ row ∈ rows, row.2.Listed) ∧ ∀ row ∈ rows, T row.1 ∧ row.2.EveryText T := by
    induction h with
    | nil => exact ⟨rfl, nofun, nofun⟩
    | @cons row row' _ _ hrow _ ih =>
      obtain ⟨hcontents, hlisted, htexts⟩ := ih
      have hread : Prod.map Held.text Live.contents row = row' :=
        Prod.ext hrow.key hrow.value.contents
      exact ⟨by rw [List.map_cons, hread, hcontents],
        List.forall_mem_cons.mpr ⟨hrow.value.listed, hlisted⟩,
        List.forall_mem_cons.mpr ⟨⟨hrow.text, hrow.value.texts⟩, htexts⟩⟩
  obtain ⟨hcontents, hlisted, htexts⟩ := hmembers
  have hrows : (rows.foldl (fun o row => o.append row.1 row.2)
      (Object.empty.reserve n)).finalize.rows = Rows.lastOfEach rows := by
    rw [Object.finalize_rows, Object.foldl_append_rows, Object.reserve_rows]
    rfl
  -- What holds of all rows that were gathered holds of those that are left.
  have hkept : ∀ row ∈ Rows.lastOfEach rows, row ∈ rows := fun _ hrow =>
    (Rows.lastOfEach_sublist rows).subset hrow
  refine ⟨?_, Live.everyObject_ofObject_iff.mpr ⟨Object.listed_finalize
    (Object.foldl_append_index_none rows (Object.reserve_index_none rfl n)), ?_⟩,
    Live.everyText_ofObject_iff.mpr ?_⟩
  · rw [Live.ofObject, Live.contents, Live.contentsOfRows_eq_map, hrows,
      ← Rows.lastOfEach_relabelled Held.bytes_text, hcontents, Object.collect_rows]
  · rw [hrows]
    exact fun row hrow => hlisted row (hkept row hrow)
  · rw [hrows]
    exact fun row hrow => htexts row (hkept row hrow)

section

variable {parse : Parser Live} {read : Reader Value}
  (hparse : ∀ s, At items ahead (depth + 1) s →
    SameOutcome (Alike items ahead (depth + 1) (Spells T)) (parse s) (read s.cursor))
include hparse

omit hlends in
/-- An array is closed behind its elements, and at once if it has none. -/
theorem parseArray_sameOutcome (h : At items ahead (depth + 1) s) :
    SameOutcome (Alike items ahead depth (Spells T))
      (if s.cursor.count = 0 then .ok (.array [], s.skip.popDepth)
        else do
          let (elements, s) ← parseElements parse s.cursor.count s
          .ok (.array elements, s.popDepth))
      (if s.cursor.count = 0 then .ok (.array [], s.cursor.skip)
        else (readElements read s.cursor.count s.cursor).map
          fun (elements, c) => (.array elements, c)) := by
  by_cases hcount : s.cursor.count = 0
  · rw [if_pos hcount, if_pos hcount]
    exact .ok ⟨Live.spells_array .nil, rfl, h.skip.popDepth⟩
  · rw [if_neg hcount, if_neg hcount]
    refine (parseElements_sameOutcome hparse _ h).map ?_
    rintro ⟨vs, s⟩ ⟨xs, _⟩ ⟨hvs, rfl, hs⟩
    exact ⟨Live.spells_array hvs, rfl, hs.popDepth⟩

/-- So is an object. -/
theorem parseObject_sameOutcome (h : At items ahead (depth + 1) s) :
    SameOutcome (Alike items ahead depth (Spells T))
      (if s.cursor.count = 0 then .ok (.ofObject .empty, s.skip.popDepth)
        else do
          let room := Object.empty.reserve s.cursor.count
          let (o, s) ← parseMembers r parse s.cursor.count room s
          .ok (.ofObject o.finalize, s.popDepth))
      (if s.cursor.count = 0 then .ok (.object [], s.cursor.skip)
        else (readMembers r.form read s.cursor.count s.cursor).map
          fun (rows, c) => (.object (Object.collect rows).rows, c)) := by
  by_cases hcount : s.cursor.count = 0
  · rw [if_pos hcount, if_pos hcount]
    exact .ok ⟨Live.spells_empty, rfl, h.skip.popDepth⟩
  · rw [if_neg hcount, if_neg hcount]
    refine (parseMembers_sameOutcome hlends hparse _ _ h).map ?_
    rintro ⟨_, s⟩ ⟨rows, _⟩ ⟨⟨added, rfl, hadded⟩, rfl, hs⟩
    exact ⟨spells_finalize _ hadded, rfl, hs.popDepth⟩

end

/-! ## §4 Values -/

omit hlends in
theorem parseValue_of_array (root : Bool) (h : s.cursor.skip.byte = Byte.openArray) :
    parseValue r (ahead + 1) root s = (do
      let s ← s.skip.pushDepth r.limit
      if s.cursor.count = 0 then .ok (.array [], s.skip.popDepth)
      else
        let (elements, s) ← parseElements (parseValue r ahead false) s.cursor.count s
        .ok (.array elements, s.popDepth)) := by
  have hnext : s.next = (Byte.openArray, s.skip) := by rw [← h]; rfl
  rw [parseValue]
  simp only [hnext, beq_self_eq_true, if_true]

omit hlends in
theorem parseValue_of_object (root : Bool) (h : s.cursor.skip.byte = Byte.openObject) :
    parseValue r (ahead + 1) root s = (do
      let s ← s.skip.pushDepth r.limit
      if s.cursor.count = 0 then .ok (.ofObject .empty, s.skip.popDepth)
      else
        let room := Object.empty.reserve s.cursor.count
        let (o, s) ← parseMembers r (parseValue r ahead false) s.cursor.count room s
        .ok (.ofObject o.finalize, s.popDepth)) := by
  have hnext : s.next = (Byte.openObject, s.skip) := by rw [← h]; rfl
  have hother : (Byte.openObject == Byte.openArray) = false := rfl
  rw [parseValue]
  simp only [hnext, hother, Bool.false_eq_true, if_false, beq_self_eq_true, if_true]

omit hlends in
theorem parseValue_of_atom (root : Bool) (harray : s.cursor.skip.byte ≠ Byte.openArray)
    (hobject : s.cursor.skip.byte ≠ Byte.openObject) :
    parseValue r (ahead + 1) root s =
      (parseAtom r root s.cursor.skip.byte s.skip.cursor).map fun v => (v, s.skip) := by
  have hnext : s.next = (s.cursor.skip.byte, s.skip) := rfl
  rw [parseValue]
  simp only [hnext, beq_eq_false_iff_ne.mpr harray, beq_eq_false_iff_ne.mpr hobject,
    Bool.false_eq_true, if_false]
  cases parseAtom r root s.cursor.skip.byte s.skip.cursor <;> rfl

omit hlends in
/-- Both walks open one more container as long as there are levels left, and go on inside it. -/
theorem pushDepth_sameOutcome {parseInside : Parser Live}
    {readInside : Nat → Except Fault (Value × Cursor)} (h : At items ahead depth s)
    (hdepth : depth ≤ r.limit)
    (hinside : depth + 1 ≤ r.limit → ∀ s', s'.cursor = s.cursor → At items ahead (depth + 1) s' →
      SameOutcome (Alike items ahead depth (Spells T)) (parseInside s')
        (readInside (r.limit - (depth + 1)))) :
    SameOutcome (Alike items ahead depth (Spells T)) (s.pushDepth r.limit >>= parseInside)
      (match r.limit - depth with
        | 0 => .error (s.cursor.fault .depthExceeded)
        | levels + 1 => readInside levels) := by
  rw [State.pushDepth, h.depth]
  cases hlevels : r.limit - depth with
  | zero =>
    rw [if_pos (by omega)]
    exact .error _
  | succ levels =>
    have hleft : r.limit - (depth + 1) = levels := by omega
    rw [if_neg (by omega)]
    exact hleft ▸ hinside (by omega) { s with depth := depth + 1 } rfl ⟨rfl, h.ahead, h.within⟩

/-- Reading with the counter gives what reading with levels gives, and the counter stands where it
stood before. -/
theorem parseValue_sameOutcome (hdepth : depth ≤ r.limit) (root : Bool)
    (h : At items ahead depth s) :
    SameOutcome (Alike items ahead depth (Spells T)) (parseValue r ahead root s)
      (readValue r.form (r.limit - depth) root s.cursor) := by
  induction ahead generalizing depth root s with
  | zero =>
    -- Behind the last token both walks find a byte that begins nothing.
    have hrest : s.cursor.rest = [] := List.length_eq_zero_iff.mp (Nat.le_zero.mp h.ahead)
    have hbyte : s.cursor.skip.byte = 0 := by rw [Cursor.byte, Cursor.skip, hrest]; rfl
    rw [parseValue, readValue_of_atom (by rw [hbyte]; decide) (by rw [hbyte]; decide), hbyte]
    exact .error _
  | succ ahead ih =>
    by_cases harray : s.cursor.skip.byte = Byte.openArray
    · rw [parseValue_of_array root harray, readValue_of_array harray]
      refine (pushDepth_sameOutcome h.next hdepth fun hle s' hcursor hs' => ?_).mono
        fun _ _ hxy => hxy.behind
      rw [← State.skip_cursor, ← hcursor]
      exact parseArray_sameOutcome (fun _ => ih hle false) hs'
    by_cases hobject : s.cursor.skip.byte = Byte.openObject
    · rw [parseValue_of_object root hobject, readValue_of_object hobject]
      refine (pushDepth_sameOutcome h.next hdepth fun hle s' hcursor hs' => ?_).mono
        fun _ _ hxy => hxy.behind
      rw [← State.skip_cursor, ← hcursor]
      exact parseObject_sameOutcome hlends (fun _ => ih hle false) hs'
    rw [parseValue_of_atom root harray hobject, readValue_of_atom harray hobject]
    refine (parseAtom_sameOutcome hlends h.next.within root _).map fun v x hv => ?_
    exact ⟨hv, rfl, h.next.mono (Nat.le_succ ahead)⟩

omit hlends in
/-- Wherever the walk stands, the counter is the structural limit: what can still be read is what
can be read with the levels that are left, and behind the value the counter is what it was. -/
theorem parseValue_eq_readValue (r : Request) (root : Bool) (hdepth : s.depth ≤ r.limit)
    (hahead : s.cursor.rest.length ≤ ahead) :
    (fun x => (x.1.contents, x.2)) <$> parseValue r ahead root s =
      (fun y => (y.1, ⟨y.2, s.depth⟩)) <$>
        readValue r.form (r.limit - s.depth) root s.cursor := by
  have hat : At (s.cursor.last.toList ++ s.cursor.rest) ahead s.depth s :=
    ⟨rfl, hahead, fun item hitem => List.mem_append_left _ (Option.mem_toList.mpr hitem),
      fun item hitem => List.mem_append_right _ hitem⟩
  have hvalue := parseValue_sameOutcome (r := r) (T := fun _ => True)
    (fun _ _ _ _ => trivial) hdepth root hat
  have hsame : SameOutcome (fun a b => a = b)
      ((fun x => (x.1.contents, x.2)) <$> parseValue r ahead root s)
      ((fun y => (y.1, (⟨y.2, s.depth⟩ : State))) <$>
        readValue r.form (r.limit - s.depth) root s.cursor) := by
    refine hvalue.map ?_
    rintro ⟨v, s'⟩ ⟨x, _⟩ ⟨hv, rfl, hs⟩
    exact Prod.ext hv.contents (congrArg (State.mk s'.cursor) hs.depth)
  simpa using hsame.map_eq (f := id) fun _ _ h => h

omit hlends in
/-- The walk over a whole text begins with no container open. -/
theorem parse_sameOutcome {input : Bytes} {requested : Nat}
    (hlimit : r.limit = effectiveDepth requested)
    (hlends : ∀ c, Cursor.ofInput input = .ok c → Lends r T c.rest) :
    SameOutcome (Spells T) (parse r input) (readInput r.form requested input) := by
  unfold parse readInput
  cases hc : Cursor.ofInput input with
  | error fault => exact .error _
  | ok c =>
    have hstart : c.last = none := by
      obtain ⟨_, -, hc⟩ := bind_eq_ok_iff.mp hc
      obtain ⟨_, -, hc⟩ := bind_eq_ok_iff.mp hc
      cases hc
      rfl
    have hwithin : Within c.rest c := by
      refine ⟨fun item hitem => ?_, fun _ h => h⟩
      rw [hstart] at hitem
      cases hitem
    have hat : At c.rest c.rest.length 0 ⟨c, 0⟩ := ⟨rfl, Nat.le_refl _, hwithin⟩
    have hvalue := parseValue_sameOutcome (hlends c hc) (Nat.zero_le _) true hat
    rw [Nat.sub_zero, hlimit] at hvalue
    refine hvalue.bind ?_
    rintro ⟨v, s⟩ ⟨x, _⟩ ⟨hv, -, -⟩
    exact .ok hv

end Decode

/-! ## §5 Decoding -/

variable {form : Representation} {buffer requested : Nat} {input : Bytes}

/-- Whatever buffer a text is in, what is decoded from it says what is read level by level, and its
texts are those of the tokens. -/
theorem Live.decode_sameOutcome {T : Held Slice → Prop}
    (hlends : ∀ c, Cursor.ofInput input = .ok c →
      Decode.Lends ⟨form, buffer, effectiveDepth requested⟩ T c.rest) :
    SameOutcome (Live.Spells T) (Live.decode form buffer requested input)
      ((Decode.readInput form requested input).mapError (·.locate input)) :=
  (Decode.parse_sameOutcome rfl hlends).mapError _

/-- What is decoded says what is read, and its objects are association lists. -/
theorem Live.decode_spells (form : Representation) (buffer requested : Nat) (input : Bytes) :
    SameOutcome (Live.Spells fun _ => True) (Live.decode form buffer requested input)
      ((Decode.readInput form requested input).mapError (·.locate input)) :=
  Live.decode_sameOutcome fun _ _ _ _ _ _ => trivial

/-- Decoding is reading level by level. -/
theorem decode_eq_readInput (form : Representation) (requested : Nat) (input : Bytes) :
    decode form requested input =
      (Decode.readInput form requested input).mapError (·.locate input) :=
  (Live.decode_spells form 0 requested input).map_eq fun _ _ hv => hv.contents

/-- What is decoded says the same in every buffer. -/
theorem Live.contents_decode (form : Representation) (buffer requested : Nat) (input : Bytes) :
    Live.contents <$> Live.decode form buffer requested input =
      JsonTree.decode form requested input := by
  rw [decode_eq_readInput]
  exact (Live.decode_spells form buffer requested input).map_eq fun _ _ hv => hv.contents

/-- The objects of a decoded value are association lists. -/
theorem Live.decode_listed {v : Live} (h : Live.decode form buffer requested input = .ok v) :
    v.Listed := by
  have hdecode := Live.decode_spells form buffer requested input
  rw [h] at hdecode
  obtain ⟨_, -, hv⟩ := hdecode.exists_of_ok
  exact hv.listed

end JsonTree
