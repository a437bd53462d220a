import JsonTree.Proofs.Live.Equality
import JsonTree.Proofs.Live.Run

/-!
# Changes at the end of a path

A part of a value is changed in place, and everything around it stays as it is: the value before and
the value after are one context around two parts. Live values change in this way as long as no index
in them is stale. A stale index may lead a key to the row of another one, and then a change goes
astray.

## Main definitions

- `Value.ActsAsRows`: an object in which no index can be seen.

## Main statements

- `Live.values_assign_moved`: a value that is replaced by a part of itself.
- `Value.mutate_frame`: a change touches nothing but the part at the end of its path.
- `Value.mutate_staled`: a stale index leads a change to another member.
-/

namespace JsonTree

/-! ## §1 Moves -/

namespace Live

/-- A live value that is replaced by a part of itself is that part afterwards, with all its
indices. -/
theorem values_assign_moved {s : Store} {i : Nat} {path : List Value.Step} {w : Live}
    (h : (s.values i).at? path = some w) :
    (Op.run s ⟨⟨i, []⟩, .assign (.moved ⟨i, path⟩)⟩).values = Function.update s.values i w := by
  have hsupplied : supplied s (.assign (.moved ⟨i, path⟩)) =
      (some (.assign w), s.change ⟨i, path⟩ (.assign .null)) := by
    rw [supplied, Source.supply, h]
    rfl
  rw [Op.run, hsupplied]
  -- The null that was left in the part goes away with the rest of the value.
  exact Function.update_idem ..

end Live

namespace Value

/-! ## §2 Objects -/

/-- An object in which no index can be seen: it is searched and changed like its rows, and stays
such an object. -/
structure ActsAsRows (o : Object Bytes Value) : Prop where
  get? : ∀ key, o.get? key = (object o.rows).get? key
  modify : ∀ key part, object (o.modify key fun _ => part).rows =
    (object o.rows).replaceStep part (.key key)
  insert : ∀ key member, (object o.rows).insert key member =
    .ok ((o.insert key member).1, .object (o.insert key member).2.rows)
  remove : ∀ key, (object o.rows).remove key =
    .ok ((o.remove key).1, .object (o.remove key).2.rows)
  fresh_modify : ∀ key part, (o.modify key fun _ => part).Fresh
  fresh_insert : ∀ key member, (o.insert key member).2.Fresh
  fresh_remove : ∀ key, (o.remove key).2.Fresh

theorem actsAsRows_of_fresh {o : Object Bytes Value} (h : o.Fresh) : ActsAsRows o where
  get? key := by rw [h.followsRows.get?, get?_rows]
  modify key part := by
    rw [h.followsRows.modify, replaceStep,
      (Object.followsRows_ofRows o.rows).modify]
    rfl
  insert key member := by
    have heq := ((Object.followsRows_ofRows o.rows).insert key member).trans
      (h.followsRows.insert key member).symm
    exact congrArg (fun p : Option Value × Rows Bytes Value => Except.ok (p.1, object p.2)) heq
  remove key := by
    have heq := ((Object.followsRows_ofRows o.rows).remove key).trans
      (h.followsRows.remove key).symm
    exact congrArg (fun p : Option Value × Rows Bytes Value => Except.ok (p.1, object p.2)) heq
  fresh_modify key part := h.modify key fun _ => part
  fresh_insert key member := h.insert key member
  fresh_remove key := h.remove key

/-! ## §3 The frame law -/

/-- A change at the end of a path touches nothing else. Where the path does not resolve, or leads to
a value of another kind than the change needs, all is as before. Otherwise the change tells and
leaves what it does on the part alone: the value is the same context around the new part, lookups
beside the path find what they found, and the containers above keep kind, size, keys and order. A
value that is replaced by a part of itself is that part. Objects whose index is not stale are
searched and changed like the values that hold their rows, and live values without stale indices
are searched and changed like their contents, and stay such values. -/
theorem mutate_frame (v : Value) (path : List Step) (m : Mutator Bytes Value) :
    (v.at? path = none → v.mutate path m = (none, v)) ∧
    (∀ w e, v.at? path = some w → w.apply m = .error e →
      v.mutate path m = (some (.error e), v)) ∧
    (∀ (w : Value) e, w.apply m = .error e ↔ ∃ kind, m.needs = some (kind, e) ∧ w.kind ≠ kind) ∧
    (∀ w told w', v.at? path = some w → w.apply m = .ok (told, w') →
      ∃ frames, LeadsAlong frames path ∧ v = fill frames w ∧
        v.mutate path m = (some (.ok told), fill frames w') ∧
        (∀ rest, (fill frames w').at? (path ++ rest) = w'.at? rest) ∧
        (∀ other, ¬ path <+: other → ¬ other <+: path →
          (fill frames w').at? other = v.at? other) ∧
        ∀ before s after, path = before ++ s :: after →
          ∃ u u', v.at? before = some u ∧ (fill frames w').at? before = some u' ∧
            SameShell u u') ∧
    (∀ (s : Live.Store) i w, (s.values i).at? path = some w →
      (Live.Op.run s ⟨⟨i, []⟩, .assign (.moved ⟨i, path⟩)⟩).values =
        Function.update s.values i w) ∧
    (∀ o : Object Bytes Value, o.Fresh → ActsAsRows o) ∧
    ∀ (l : Live) (n : Mutator Slice Live), l.contents = v → Live.contentsOfMutator n = m →
      l.Fresh → (∀ w, n.value? = some w → w.Fresh) →
      v.mutate path m = ((l.mutate path n).1.map (Except.map (Option.map Live.contents)),
        (l.mutate path n).2.contents) ∧
      (l.mutate path n).2.Fresh ∧
      ∀ other, v.at? other = (l.at? other).map Live.contents ∧
        (v.mutate path m).2.at? other = ((l.mutate path n).2.at? other).map Live.contents := by
  refine ⟨fun h => mutate_of_none h m, fun w e h hm => mutate_of_error h hm,
    apply_eq_error_iff m, fun w told w' h hm => ?_, fun s i w h => Live.values_assign_moved h,
    fun o h => actsAsRows_of_fresh h, ?_⟩
  · obtain ⟨frames, halong, rfl, hmutate⟩ := mutate_of_ok h hm
    refine ⟨frames, halong, rfl, hmutate, at?_fill halong w', fun other hpath hother => ?_, ?_⟩
    · exact at?_fill_other halong w' w hpath hother
    · rintro before s after rfl
      exact sameShell_fill halong w w'
  -- The change is fresh and leaves a fresh value, so lookups before and after are by contents.
  · rintro l n rfl rfl hl hn
    have hleft : (l.mutate path n).2.Fresh := (hl.mutate Object.kept_fresh hn path).2
    have hmutate := hl.contents_mutate path n
    refine ⟨hmutate, hleft, fun other => ⟨hl.contents_at? other, ?_⟩⟩
    rw [hmutate]
    exact hleft.contents_at? other

/-- An array in an object, with an object in it. -/
def nestedValue : Value :=
  .object [(.owned [97], .array [.null, .object [(.borrowed [98], .i64 1)]]),
    (.owned [99], .bool true)]

/-- The same as a live value. -/
def nestedLive : Live :=
  .ofObject (.ofRows
    [(.owned [97], .array [.null, .ofObject (.ofRows [(.borrowed ⟨0, 1, [98]⟩, .i64 1)])]),
      (.owned [99], .bool true)])

/-- Changes of the inner object, and of the array where an object is needed. -/
theorem mutate_frame_nested :
    (∃ v', nestedValue.mutate [.key [97], .index 1] (.insert (.owned [98]) (.i64 2)) =
        (some (.ok (some (.i64 1))), v') ∧
      v'.at? [.key [97], .index 1, .key [98]] = some (.i64 2) ∧
      v'.at? [.key [99]] = some (.bool true)) ∧
    nestedValue.mutate [.key [97]] (.remove [98]) = (some (.error ⟨.notAnObject⟩), nestedValue) ∧
    nestedValue.mutate [.key [97], .index 2] .pop = (none, nestedValue) ∧
    (Live.Op.run ⟨fun _ => nestedLive, none⟩
        ⟨⟨0, []⟩, .assign (.moved ⟨0, [.key [97]]⟩)⟩).values 0 =
      .array [.null, .ofObject (.ofRows [(.borrowed ⟨0, 1, [98]⟩, .i64 1)])] ∧
    (nestedLive.mutate [.key [97]] (.remove [98])).2.contents = nestedValue := by
  obtain ⟨-, -, -, hinsert, -⟩ := mutate_frame nestedValue [.key [97], .index 1]
    (.insert (.owned [98]) (.i64 2))
  obtain ⟨-, hremove, -, -, hmoved, -, hlive⟩ := mutate_frame nestedValue [.key [97]] (.remove [98])
  obtain ⟨hpop, -⟩ := mutate_frame nestedValue [.key [97], .index 2] .pop
  obtain ⟨frames, -, -, hmutate, hbehind, hbeside, -⟩ := hinsert _ _ _ rfl rfl
  have hremoved := hremove _ _ rfl rfl
  have hfresh : nestedLive.Fresh := by
    refine Live.everyObject_ofObject_iff.mpr ⟨Object.fresh_of_none rfl, ?_⟩
    refine List.forall_mem_cons.mpr ⟨?_, List.forall_mem_singleton.mpr
      (Live.everyObject_of_nesting rfl)⟩
    refine Live.everyObject_array_iff.mpr (List.forall_mem_cons.mpr
      ⟨Live.everyObject_of_nesting rfl, List.forall_mem_singleton.mpr ?_⟩)
    exact Live.everyObject_ofObject_iff.mpr ⟨Object.fresh_of_none rfl,
      List.forall_mem_singleton.mpr (Live.everyObject_of_nesting rfl)⟩
  obtain ⟨hcontents, -⟩ := hlive nestedLive (.remove [98]) rfl rfl hfresh nofun
  refine ⟨⟨_, hmutate, hbehind [.key [98]], (hbeside [.key [99]] ?_ ?_).trans rfl⟩,
    hremoved, hpop rfl, ?_, ?_⟩
  · decide
  · decide
  · rw [hmoved ⟨fun _ => nestedLive, none⟩ 0 _ rfl, Function.update_self]
  · rw [hremoved] at hcontents
    exact (congrArg Prod.snd hcontents).symm

/-- A change along one key of an object whose index is stale changes the member of another key,
although the object repeats none. -/
theorem mutate_staled :
    let v := Live.ofObject staled
    v.contents.DistinctKeys ∧
    (v.at? [.key [98]]).bind (·.contents.asI64) = some 1 ∧
    ((v.mutate [.key [97]] (.assign (.i64 99))).2.at? [.key [98]]).bind (·.contents.asI64) =
      some 99 := by
  refine ⟨staled_contents.1, ?_, ?_⟩
  · decide +kernel
  · decide +kernel

end Value

end JsonTree
