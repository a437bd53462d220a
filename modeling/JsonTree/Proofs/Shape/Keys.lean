import JsonTree.Proofs.Shape.Outcome

/-!
# The keys of entries

A map asks the first shape of each entry for a key. It gets one from a text, from the name of a unit
variant and from structs around these, and the same shape as a datum is then encoded as that text.
All other shapes are refused with one and the same failure, whatever they hold, because nothing
below the structs is looked at. An entry that is refused is not stored, and its datum has no say.

## Main definitions

- `Shape.Unwraps`: the shapes from a shape down to what its structs wrap.
- `Shape.addEntry`, `Shape.addEntries`: put entries into a map that is kept when they fail.

## Main statements

- `Shape.Names.encodeAt_eq`: a key, as a datum, is encoded as its text.
- `Shape.encodeEntries_eq`: encoding the entries of a map puts them in one by one.
- `Shape.key_language`: the shapes that are keys, and what the others fail with.
- `Shape.key_ofValue_iff`, `Shape.key_ofPrimitive_iff`: the values and primitives that are keys.
-/

namespace JsonTree.Shape

variable {k : Shape} {text : Bytes} {limit depth : Nat}

/-! ## §1 Keys and their texts -/

theorem key_eq_ok_iff (k : Shape) (text : Bytes) : k.key = .ok text ↔ k.Names text := by
  rcases key_cases k with ⟨text', hkey, hnames⟩ | ⟨hkey, hnone⟩
  · rw [hkey]
    constructor
    · intro h
      cases h
      exact hnames
    · exact fun h => congrArg Except.ok (hnames.eq h)
  · rw [hkey]
    exact ⟨nofun, fun h => absurd h (hnone text)⟩

/-- Whatever is no key fails in one way. -/
theorem key_eq_error_iff (k : Shape) (e : EncodeError) :
    k.key = .error e ↔ (∀ text, ¬ k.Names text) ∧ e = .keyNotString := by
  rcases key_cases k with ⟨text, hkey, hnames⟩ | ⟨hkey, hnone⟩
  · rw [hkey]
    exact ⟨nofun, fun h => absurd hnames (h.1 text)⟩
  · rw [hkey]
    constructor
    · intro h
      cases h
      exact ⟨hnone, rfl⟩
    · rintro ⟨-, rfl⟩
      rfl

/-- A key, as a datum, is encoded as its text. It opens no container, so no limit is too small. -/
theorem Names.encodeAt_eq (h : Names k text) (limit depth : Nat) :
    k.encodeAt limit depth = .ok (.string (.owned text)) := by
  induction h with
  | text | unitVariant => rw [encodeAt]
  | newtypeStruct _ ih => rw [encodeAt, ih]

/-! ## §2 Shapes that are asked -/

/-- The shapes from a shape down to the first one that is not a struct around another. -/
inductive Unwraps : Shape → List Shape → Prop where
  | core {s : Shape} : (∀ datum, s ≠ .newtypeStruct datum) → Unwraps s [s]
  | newtypeStruct {datum : Shape} {inner : List Shape} :
      Unwraps datum inner → Unwraps (.newtypeStruct datum) (.newtypeStruct datum :: inner)

/-- Only structs are looked into: what is asked is what they wrap, and nothing inside of that. -/
theorem unwraps_askKey (k : Shape) : k.Unwraps k.askKey.2 := by
  cases k with
  | newtypeStruct datum => exact .newtypeStruct (unwraps_askKey datum)
  | _ => exact .core nofun

/-! ## §3 Entries of a map -/

/-- Put an entry into a map: its key comes first, then its value. The map survives a failure. -/
def addEntry (limit depth : Nat) (k datum : Shape) :
    ExceptT EncodeError (StateM (Object Slice Live)) Unit := do
  let key ← ExceptT.mk (pure k.key)
  let v ← ExceptT.mk (pure (datum.encodeAt limit depth))
  modify fun o => store o key v

/-- Put entries into a map, in order, up to the first one that fails. -/
def addEntries (limit depth : Nat) :
    List (Shape × Shape) → ExceptT EncodeError (StateM (Object Slice Live)) Unit
  | [] => pure ()
  | (k, datum) :: entries => do
    addEntry limit depth k datum
    addEntries limit depth entries

variable {o o' : Object Slice Live} {datum : Shape} {e : EncodeError} {v : Live}

/-- An entry is refused for its key, whatever its value would be, and the map is as it was. -/
theorem addEntry_of_key (h : k.key = .error e) (limit depth : Nat) (datum : Shape)
    (o : Object Slice Live) : (addEntry limit depth k datum).run.run o = (.error e, o) := by
  simp only [addEntry, h]
  rfl

theorem addEntry_of_value (hkey : k.key = .ok text) (h : datum.encodeAt limit depth = .error e)
    (o : Object Slice Live) : (addEntry limit depth k datum).run.run o = (.error e, o) := by
  simp only [addEntry, hkey, h]
  rfl

theorem addEntry_of_ok (hkey : k.key = .ok text) (h : datum.encodeAt limit depth = .ok v)
    (o : Object Slice Live) :
    (addEntry limit depth k datum).run.run o = (.ok (), store o text v) := by
  simp only [addEntry, hkey, h]
  rfl

/-- An entry that passes hands its map to the entries after it. -/
theorem addEntries_of_ok {entries : List (Shape × Shape)}
    (h : (addEntry limit depth k datum).run.run o = (.ok (), o')) :
    (addEntries limit depth ((k, datum) :: entries)).run.run o =
      (addEntries limit depth entries).run.run o' := by
  rw [addEntries]
  simp only [ExceptT.run_bind, StateT.run_bind, h]
  rfl

/-- An entry that fails is the last one. -/
theorem addEntries_of_error {entries : List (Shape × Shape)}
    (h : (addEntry limit depth k datum).run.run o = (.error e, o')) :
    (addEntries limit depth ((k, datum) :: entries)).run.run o = (.error e, o') := by
  rw [addEntries]
  simp only [ExceptT.run_bind, StateT.run_bind, h]
  rfl

/-- Encoding the entries of a map is putting them in one by one, and the map that they leave. -/
theorem encodeEntries_eq (limit depth : Nat) (o : Object Slice Live)
    (entries : List (Shape × Shape)) :
    encodeEntries limit depth o entries =
      let (answer, left) := (addEntries limit depth entries).run.run o
      (fun _ => left) <$> answer := by
  induction entries generalizing o with
  | nil => rw [encodeEntries]; rfl
  | cons entry entries ih =>
    obtain ⟨k, datum⟩ := entry
    rw [encodeEntries]
    -- The key comes first, then the value, and a row is stored only if both pass.
    cases hkey : k.key with
    | error e =>
      rw [addEntries_of_error (addEntry_of_key hkey limit depth datum o)]
      rfl
    | ok text =>
      cases hvalue : datum.encodeAt limit depth with
      | error e =>
        rw [addEntries_of_error (addEntry_of_value hkey hvalue o)]
        rfl
      | ok v =>
        rw [addEntries_of_ok (addEntry_of_ok hkey hvalue o)]
        exact ih (store o text v)

/-- Entries that pass hand their map to the entries after them. -/
theorem addEntries_append {before : List (Shape × Shape)}
    (h : (addEntries limit depth before).run.run o = (.ok (), o'))
    (later : List (Shape × Shape)) :
    (addEntries limit depth (before ++ later)).run.run o =
      (addEntries limit depth later).run.run o' := by
  induction before generalizing o with
  | nil =>
    cases h
    rfl
  | cons entry before ih =>
    obtain ⟨k, datum⟩ := entry
    cases hentry : (addEntry limit depth k datum).run.run o with
    | mk answer left =>
      cases answer with
      | error e => exact nomatch (addEntries_of_error hentry).symm.trans h
      | ok =>
        rw [addEntries_of_ok hentry] at h
        rw [List.cons_append, addEntries_of_ok hentry, ih h]

/-! ## §4 The language of keys -/

/-- Exactly texts and names of unit variants, inside of any number of structs, are keys; all other
shapes fail in one way, and nothing inside of what the structs wrap is asked. A key is the text that
the same shape is encoded as, at any depth. A map that has taken some entries and meets a shape that
is no key stays as it is and reports the key, whatever the value of the entry and later ones are. -/
theorem key_language (k : Shape) :
    (∀ text, k.key = .ok text ↔ k.Names text) ∧
    ((∀ text, ¬ k.Names text) → k.key = .error .keyNotString) ∧
    (k.askKey.1 = k.key ∧ k.Unwraps k.askKey.2) ∧
    (∀ text, k.key = .ok text →
      ∀ limit depth, k.encodeAt limit depth = .ok (.string (.owned text))) ∧
    (∀ limit depth o entries,
      encodeEntries limit depth o entries =
        let (answer, left) := (addEntries limit depth entries).run.run o
        (fun _ => left) <$> answer) ∧
    ∀ limit depth before o o', (addEntries limit depth before).run.run o = (.ok (), o') →
      (∀ text, ¬ k.Names text) → ∀ datum later,
        (addEntries limit depth (before ++ (k, datum) :: later)).run.run o =
          (.error .keyNotString, o') := by
  have hrefused : (∀ text, ¬ k.Names text) → k.key = .error .keyNotString := fun hnone =>
    (key_eq_error_iff k _).mpr ⟨hnone, rfl⟩
  refine ⟨key_eq_ok_iff k, hrefused, ⟨rfl, unwraps_askKey k⟩, fun text hkey => ?_,
    encodeEntries_eq, fun limit depth before o o' hbefore hnone datum later => ?_⟩
  · exact ((key_eq_ok_iff k text).mp hkey).encodeAt_eq
  · rw [addEntries_append hbefore]
    exact addEntries_of_error (addEntry_of_key (hrefused hnone) limit depth datum o')

/-- A map is the key of an entry whose value lies too deep, after an entry under a wrapped name. -/
theorem key_language_refused :
    (Shape.newtypeStruct (.unitVariant [97])).key = .ok [97] ∧
    (Shape.newtypeStruct (.unitVariant [97])).encodeAt 0 0 = .ok (.string (.owned [97])) ∧
    (Shape.map [(.map [], .unit)]).key = .error .keyNotString ∧
    (Shape.seq [.seq []]).encodeAt 1 1 = .error (.depthExceeded 1) ∧
    (addEntries 1 1 ([(.newtypeStruct (.unitVariant [97]), .unit)] ++
      (.map [(.map [], .unit)], .seq [.seq []]) :: [])).run.run .empty =
        (.error .keyNotString, store .empty [97] .null) := by
  have hname : (Shape.newtypeStruct (.unitVariant [97])).Names [97] := .newtypeStruct .unitVariant
  have hcompound : ∀ text, ¬ (Shape.map [(.map [], .unit)]).Names text := nofun
  obtain ⟨haccepted, -, -, hencoded, -⟩ := key_language (.newtypeStruct (.unitVariant [97]))
  obtain ⟨-, hrefused, -, -, -, hentry⟩ := key_language (.map [(.map [], .unit)])
  have hkey := (haccepted [97]).mpr hname
  have hbefore : (addEntries 1 1 [(.newtypeStruct (.unitVariant [97]), .unit)]).run.run .empty =
      (.ok (), store .empty [97] .null) :=
    addEntries_of_ok (addEntry_of_ok hkey (by rw [encodeAt]) .empty)
  exact ⟨hkey, hencoded [97] hkey 0 0, hrefused hcompound, by rw [encodeAt]; rfl,
    hentry 1 1 _ _ _ hbefore hcompound _ _⟩

/-! ## §5 Values and primitives -/

/-- Of all values exactly strings are keys. -/
theorem key_ofValue_iff (v : Value) (text : Bytes) :
    (ofValue v).key = .ok text ↔ ∃ t, v = .string t ∧ t.bytes = text := by
  cases v with
  | string t => simp [ofValue, key, askKey]
  | _ => simp [ofValue, key, askKey]

/-- Of all primitives exactly texts are keys; terminated text has to be there. -/
theorem key_ofPrimitive_iff (p : Primitive) (text : Bytes) :
    (ofPrimitive p).key = .ok text ↔
      p = .text text ∨ ∃ content, p = .terminated (some content) ∧ content.untilZero = text := by
  cases p with
  | terminated content => cases content <;> simp [ofPrimitive, key, askKey]
  | _ => simp [ofPrimitive, key, askKey]

end JsonTree.Shape
