import JsonTree.Proofs.Live.Contents
import JsonTree.Proofs.Shape.Contents
import Mathlib.Data.List.Nodup

/-!
# The encoder that keeps everything

The encoder stores members in objects with room, blocks and an index that it makes and keeps up as
they grow. The contents are those that are found by rows alone, every object is an association list,
and all texts are owned.

## Main definitions

- `Live.OwnsTexts`: a value that borrows nothing.
- `Shape.SpellsObject`: an object that holds what is given.

## Main statements

- `Shape.encodeAt_sameOutcome`: encoding a shape, and its contents alone.
- `encode_eq_contentsAt`: what encoding comes to.
- `Live.encode_owned`: an encoded value is listed and borrows nothing.
-/

namespace JsonTree

/-- All strings and keys of a value own their bytes. -/
def Live.OwnsTexts (v : Live) : Prop := v.EveryText fun t => t.isBorrowed = false

namespace Shape

open Live (Spells)

/-! ## §1 Objects -/

/-- A live value without borrowed text says what is given. -/
abbrev Owned (v : Live) (x : Value) : Prop := Spells (fun t => t.isBorrowed = false) v x

/-- An object without borrowed text holds what is given. -/
structure SpellsObject (o : Object Slice Live) (p : Object Bytes Value) : Prop where
  spells : Owned (.ofObject o) (.object p.rows)
  listed : p.Listed

theorem spellsObject_empty : SpellsObject .empty .empty := ⟨Live.spells_empty, Object.listed_empty⟩

/-- What is stored in both objects is stored alike. -/
theorem SpellsObject.store {o : Object Slice Live} {p : Object Bytes Value} (h : SpellsObject o p)
    (key : Bytes) {v : Live} {x : Value} (hv : Owned v x) :
    SpellsObject (Shape.store o key v) (storeContents p key x) := by
  obtain ⟨⟨hcontents, hlisted, htexts⟩, hp⟩ := h
  obtain ⟨ho, hvalues⟩ := Live.everyObject_ofObject_iff.mp hlisted
  rw [Live.everyText_ofObject_iff] at htexts
  refine ⟨⟨?_, Live.everyObject_ofObject_iff.mpr ⟨(ho.insert _ v).2,
    (Object.forall_insert (P := Live.Listed) hvalues _ hv.listed).2⟩,
    Live.everyText_ofObject_iff.mpr (Object.forall_mem_insert htexts
      (fun row hrow => ⟨(htexts row hrow).1, hv.texts⟩) ⟨rfl, hv.texts⟩)⟩, (hp.insert _ x).2⟩
  -- Storing reads the rows alone, and the contents are the rows.
  have hinsert := hlisted.fresh.contents_insert (.owned key) v
  have hsame := hp.fresh.followsRows.insert_eq (Object.followsRows_ofRows p.rows) rfl
    (.owned key) x
  rw [hcontents, hv.contents] at hinsert
  have hrows := congrArg (Value.object ∘ Prod.snd) hsame
  exact (congrArg Prod.snd (Except.ok.inj hinsert)).symm.trans hrows.symm

/-- An object around a variant has its one member. -/
theorem owned_single (name : Bytes) {v : Live} {x : Value} (hv : Owned v x) :
    Owned (single name v) (singleContents name x) := by
  let o : Object Slice Live := Object.empty.append (.owned name) v
  have hrows : o.rows = [(Held.owned name, v)] := Object.append_rows .empty (.owned name) v
  have hlisted : o.Listed := by
    refine Object.listed_of_none ?_ (Object.append_index_none rfl _ _)
    rw [hrows]
    exact List.nodup_singleton name
  refine ⟨?_, Live.everyObject_ofObject_iff.mpr ⟨hlisted, ?_⟩, Live.everyText_ofObject_iff.mpr ?_⟩
  · change (Live.ofObject o).contents = _
    rw [Live.contents_ofObject, hrows, singleContents, ← hv.contents]
    rfl
  · rw [hrows]
    exact List.forall_mem_singleton.mpr hv.listed
  · rw [hrows]
    exact List.forall_mem_singleton.mpr ⟨rfl, hv.texts⟩

theorem owned_string (content : Bytes) :
    Owned (.string (.owned content)) (.string (.owned content)) :=
  ⟨rfl, Live.everyObject_of_nesting rfl, (Live.everyText_string_iff _).mpr rfl⟩

theorem owned_bytes (content : Bytes) :
    Owned (.array (content.map fun b => .ofInt b.toNat))
      (.array (content.map fun b => .ofInt b.toNat)) := by
  refine Live.spells_array ?_
  induction content with
  | nil => exact .nil
  | cons b content ih => exact .cons (Live.spells_of_nesting rfl nofun) ih

/-! ## §2 Shapes -/

mutual

/-- Encoding a shape comes to its contents. -/
theorem encodeAt_sameOutcome (limit depth : Nat) (s : Shape) :
    SameOutcome Owned (s.encodeAt limit depth) (s.contentsAt limit depth) := by
  cases s with
  | bool b => exact .ok (Live.spells_of_nesting rfl nofun)
  | int type n => exact .ok (Live.spells_of_nesting rfl nofun)
  | f32 x => exact .ok (Live.spells_of_nesting rfl nofun)
  | f64 x => exact .ok (Live.spells_of_nesting rfl nofun)
  | depth => exact .ok (Live.spells_of_nesting rfl nofun)
  | unit => exact .ok (Live.spells_of_nesting rfl nofun)
  | unitStruct => exact .ok (Live.spells_of_nesting rfl nofun)
  | absent => exact .ok (Live.spells_of_nesting rfl nofun)
  | char code => exact .ok (owned_string _)
  | text content => exact .ok (owned_string _)
  | unitVariant name => exact .ok (owned_string _)
  | bytes content => exact .bind_same _ fun _ => .ok (owned_bytes content)
  | present datum => exact encodeAt_sameOutcome limit depth datum
  | newtypeStruct datum => exact encodeAt_sameOutcome limit depth datum
  | newtypeVariant name datum =>
    exact .bind_same _ fun inner =>
      (encodeAt_sameOutcome limit inner datum).map fun _ _ hv => owned_single name hv
  | seq elements | tuple elements | tupleStruct elements =>
    exact .bind_same _ fun inner =>
      (encodeElements_sameOutcome limit inner elements).map fun _ _ hvs => Live.spells_array hvs
  | tupleVariant name elements =>
    exact .bind_same _ fun outer => .bind_same _ fun inner =>
      (encodeElements_sameOutcome limit inner elements).map fun _ _ hvs =>
        owned_single name (Live.spells_array hvs)
  | map entries =>
    exact .bind_same _ fun inner =>
      (encodeEntries_sameOutcome limit inner entries spellsObject_empty).map fun _ _ ho => ho.spells
  | struct fields =>
    exact .bind_same _ fun inner =>
      (encodeFields_sameOutcome limit inner fields spellsObject_empty).map fun _ _ ho => ho.spells
  | structVariant name fields =>
    exact .bind_same _ fun outer => .bind_same _ fun inner =>
      (encodeFields_sameOutcome limit inner fields spellsObject_empty).map fun _ _ ho =>
        owned_single name ho.spells

theorem encodeElements_sameOutcome (limit depth : Nat) (elements : List Shape) :
    SameOutcome (List.Forall₂ Owned) (encodeElements limit depth elements)
      (contentsElements limit depth elements) := by
  cases elements with
  | nil => exact .ok .nil
  | cons s elements =>
    exact (encodeAt_sameOutcome limit depth s).bind fun _ _ hv =>
      (encodeElements_sameOutcome limit depth elements).bind fun _ _ hvs => .ok (.cons hv hvs)

theorem encodeEntries_sameOutcome (limit depth : Nat) (entries : List (Shape × Shape))
    {o : Object Slice Live} {p : Object Bytes Value} (h : SpellsObject o p) :
    SameOutcome SpellsObject (encodeEntries limit depth o entries)
      (contentsEntries limit depth p entries) := by
  cases entries with
  | nil => exact .ok h
  | cons entry entries =>
    exact .bind_same _ fun key => (encodeAt_sameOutcome limit depth entry.2).bind fun _ _ hv =>
      encodeEntries_sameOutcome limit depth entries (h.store key hv)

theorem encodeFields_sameOutcome (limit depth : Nat) (fields : List (Bytes × Shape))
    {o : Object Slice Live} {p : Object Bytes Value} (h : SpellsObject o p) :
    SameOutcome SpellsObject (encodeFields limit depth o fields)
      (contentsFields limit depth p fields) := by
  cases fields with
  | nil => exact .ok h
  | cons field fields =>
    exact (encodeAt_sameOutcome limit depth field.2).bind fun _ _ hv =>
      encodeFields_sameOutcome limit depth fields (h.store field.1 hv)

end

end Shape

/-! ## §3 Encoding -/

variable {requested : Nat} {s : Shape}

/-- Encoding comes to the contents alone. -/
theorem encode_eq_contentsAt (requested : Nat) (s : Shape) :
    encode requested s = s.contentsAt (effectiveDepth requested) 0 :=
  (s.encodeAt_sameOutcome (effectiveDepth requested) 0).map_eq fun _ _ hv => hv.contents

/-- The objects of an encoded value are association lists, and it borrows nothing. -/
theorem Live.encode_owned {v : Live} (h : Live.encode requested s = .ok v) :
    v.Listed ∧ v.OwnsTexts := by
  have hencode := s.encodeAt_sameOutcome (effectiveDepth requested) 0
  rw [show s.encodeAt (effectiveDepth requested) 0 = .ok v from h] at hencode
  obtain ⟨_, -, hv⟩ := hencode.exists_of_ok
  exact ⟨hv.listed, hv.texts⟩

end JsonTree
