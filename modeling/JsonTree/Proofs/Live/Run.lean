import JsonTree.Proofs.Live.Decode
import JsonTree.Proofs.Live.Encode
import JsonTree.Proofs.Live.Changes
import Mathlib.Data.Finset.Card

/-!
# Runs of changes to live values

Values are kept in variables. They are decoded or encoded, made from atoms or empty containers,
copied and moved, and stored at places in one another: assigned, or inserted into an object, or
pushed onto an array. Members are removed and elements popped, and what an operation tells may be
used again. In whatever order this is done, every object in every value stays an association list
whose index, if it has one, is in step with its rows.

A value that is moved leaves null behind, and takes its objects along with their indices. It is
taken before its target changes, and so a value may be replaced by a part of itself. Where places do
not resolve, or a target is of the wrong kind, nothing is stored, but the objects that were looked
up in on the way may have an index from then on.

## Main definitions

- `Object.Keyed`: an object in which each key leads to its one row.
- `Live.Place`, `Live.Source`, `Live.Op`: where values are, come from and go to.
- `Live.Store`, `Live.run`: the variables, and what a list of operations makes of them.
- `Live.Store.Listed`: stores of values whose objects are association lists.

## Main statements

- `Object.Listed.keyed`: in an association list each key leads to its row.
- `Live.Source.listed`: so it is in what a source supplies.
- `Live.step_listed`: no operation ends it.
- `Live.run_keyed`: after every run each key leads to its one member, everywhere in all values.
-/

namespace JsonTree

/-! ## §1 Keys that lead to their rows -/

namespace Object

/-- Each key leads to its one row, through the index if the object is searched by it, and the size
counts the keys. -/
structure Keyed (o : Object Slice Live) : Prop where
  distinct : o.rows.keys.Nodup
  /-- What is found under a key is in the only row that has it. -/
  get?_iff : ∀ key member, o.get? key = some member ↔
    ∃ row ∈ o.rows, row.2 = member ∧ ∀ other ∈ o.rows, other.1.bytes = key ↔ other = row
  inStep : o.IndexInStep
  size_eq : o.size = o.rows.keys.toFinset.card

theorem Listed.keyed {o : Object Slice Live} (h : o.Listed) : o.Keyed where
  distinct := h.distinct
  get?_iff key member := by
    rw [h.get?]
    constructor
    · intro hfound
      obtain ⟨row, hrow, rfl, rfl⟩ := Rows.exists_mem_of_value? hfound
      refine ⟨row, hrow, rfl, fun other hother => ⟨fun heq => ?_, fun heq => heq ▸ rfl⟩⟩
      exact List.inj_on_of_nodup_map h.distinct hother hrow heq
    · rintro ⟨row, hrow, rfl, honly⟩
      rw [← (honly row hrow).mpr rfl]
      exact Rows.value?_of_mem h.distinct hrow
  inStep := h.fresh.indexInStep
  size_eq := by
    rw [List.toFinset_card_of_nodup h.distinct, Rows.keys, List.length_map, size]

end Object

namespace Live

open Value (Step Mutator)

/-! ## §2 Stores and operations -/

/-- A part of the value in a variable. -/
structure Place where
  register : Nat
  path : List Step

/-- The values of all variables, and the value that the last change told. -/
structure Store where
  values : Nat → Live
  told : Option Live

namespace Store

/-- The store in which all variables are null. -/
def empty : Store := ⟨fun _ => .null, none⟩

/-- Change the value at a place, if the place is there and the change is possible. -/
def change (s : Store) (target : Place) (m : Mutator Slice Live) : Store :=
  let (outcome, v) := (s.values target.register).mutate target.path m
  ⟨Function.update s.values target.register v,
    match outcome with
    | some (.ok told) => told
    | _ => none⟩

/-- The store after a place was looked up. -/
def looked (s : Store) (place : Place) : Store :=
  { s with
    values := Function.update s.values place.register
      ((s.values place.register).looked place.path) }

end Store

/-- Where a value comes from. -/
inductive Source where
  | decoded (form : Representation) (buffer requested : Nat) (input : Bytes)
  | encoded (requested : Nat) (shape : Shape)
  | primitive (p : Primitive)
  | string (t : Held Slice)
  | emptyArray
  | emptyObject
  /-- What the last change told, which is told once. -/
  | told
  | copied (place : Place)
  /-- The place is null afterwards. -/
  | moved (place : Place)

/-- The value that a source supplies, if it can, and the store after that. -/
def Source.supply (s : Store) : Source → Option Live × Store
  | .decoded form buffer requested input =>
    ((Live.decode form buffer requested input).toOption, s)
  | .encoded requested shape => ((Live.encode requested shape).toOption, s)
  | .primitive p => (some (.ofPrimitive p), s)
  | .string t => (some (.string t), s)
  | .emptyArray => (some (.array []), s)
  | .emptyObject => (some (.ofObject .empty), s)
  | .told => (s.told, { s with told := none })
  | .copied place =>
    (((s.values place.register).at? place.path).map Live.copied, s.looked place)
  | .moved place => ((s.values place.register).at? place.path, s.change place (.assign .null))

/-- The change that is made of the one that is asked for, and the store after its value was
supplied. -/
def supplied (s : Store) : Mutator Slice Source → Option (Mutator Slice Live) × Store
  | .insert key source => ((source.supply s).1.map (.insert key), (source.supply s).2)
  | .remove key => (some (.remove key), s)
  | .push source => ((source.supply s).1.map .push, (source.supply s).2)
  | .pop => (some .pop, s)
  | .assign source => ((source.supply s).1.map .assign, (source.supply s).2)

/-- An operation: a change of a place, with where its value comes from. -/
structure Op where
  target : Place
  change : Mutator Slice Source

/-- The store after an operation. -/
def Op.run (s : Store) (op : Op) : Store :=
  match supplied s op.change with
  | (some m, s) => s.change op.target m
  | (none, s) => s

/-- The store after some operations, in order. -/
def run (s : Store) (ops : List Op) : Store := ops.foldl Op.run s

/-! ## §3 What an operation keeps -/

/-- All objects in all values of the store are association lists. -/
structure Store.Listed (s : Store) : Prop where
  values : ∀ i, (s.values i).Listed
  told : ∀ v, s.told = some v → v.Listed

theorem Store.listed_empty : Store.empty.Listed :=
  ⟨fun _ => everyObject_of_nesting rfl, nofun⟩

variable {s : Store}

theorem Store.Listed.change (hs : s.Listed) (target : Place) {m : Mutator Slice Live}
    (hm : ∀ w, m.value? = some w → w.Listed) : (s.change target m).Listed := by
  obtain ⟨htold, hleft⟩ := (hs.values target.register).mutate Object.kept_listed hm target.path
  constructor
  · -- Only one variable changes.
    exact (Function.forall_update_iff s.values fun _ w => w.Listed).mpr
      ⟨hleft, fun i _ => hs.values i⟩
  · intro v hv
    rw [Store.change] at hv
    dsimp only at hv
    split at hv
    · rename_i told houtcome
      exact htold v (hv ▸ houtcome)
    · cases hv

theorem Store.Listed.looked (hs : s.Listed) (place : Place) : (s.looked place).Listed :=
  ⟨(Function.forall_update_iff s.values fun _ w => w.Listed).mpr
    ⟨(hs.values place.register).looked Object.kept_listed place.path, fun i _ => hs.values i⟩,
    hs.told⟩

theorem ofPrimitive_nesting (p : Primitive) : (ofPrimitive p).contents.nesting = 0 := by
  cases p <;> rfl

/-- A copy has no index, and the same keys. -/
theorem listed_copied {v : Live} (hv : v.Listed) : v.copied.Listed :=
  (listed_iff v.copied).mpr ⟨fresh_copied v, contents_copied v ▸ hv.distinctKeys⟩

/-- What a source supplies are association lists, and so is what it leaves. -/
theorem Source.listed (hs : s.Listed) (source : Source) :
    (∀ v, (source.supply s).1 = some v → v.Listed) ∧ (source.supply s).2.Listed := by
  have hpart : ∀ {place : Place} {v : Live},
      (s.values place.register).at? place.path = some v → v.Listed :=
    fun h => (hs.values _).of_part (part_of_at? h)
  cases source with
  | decoded form buffer requested input =>
    exact ⟨fun v hv => decode_listed (toOption_eq_some_iff.mp hv), hs⟩
  | encoded requested shape =>
    exact ⟨fun v hv => (encode_owned (toOption_eq_some_iff.mp hv)).1, hs⟩
  | primitive p =>
    refine ⟨fun v hv => ?_, hs⟩
    cases hv
    exact everyObject_of_nesting (ofPrimitive_nesting p)
  | string t =>
    refine ⟨fun v hv => ?_, hs⟩
    cases hv
    exact everyObject_of_nesting rfl
  | emptyArray =>
    refine ⟨fun v hv => ?_, hs⟩
    cases hv
    exact everyObject_array_iff.mpr nofun
  | emptyObject =>
    refine ⟨fun v hv => ?_, hs⟩
    cases hv
    exact everyObject_ofObject_iff.mpr ⟨Object.listed_empty, nofun⟩
  | told => exact ⟨hs.told, hs.values, nofun⟩
  | copied place =>
    refine ⟨fun v hv => ?_, hs.looked place⟩
    obtain ⟨w, hw, rfl⟩ := Option.map_eq_some_iff.mp hv
    exact listed_copied (hpart hw)
  | moved place =>
    -- The part itself is supplied, with its indices, and null is assigned where it was.
    refine ⟨fun v hv => hpart hv, hs.change place fun w hw => ?_⟩
    cases hw
    exact everyObject_of_nesting rfl

theorem supplied_listed (hs : s.Listed) (m : Mutator Slice Source) :
    (∀ m', (supplied s m).1 = some m' → ∀ w, m'.value? = some w → w.Listed) ∧
      (supplied s m).2.Listed := by
  cases m with
  | insert key source | push source | assign source =>
    obtain ⟨hvalue, hleft⟩ := source.listed hs
    refine ⟨fun m' hm' w hw => ?_, hleft⟩
    obtain ⟨v, hv, rfl⟩ := Option.map_eq_some_iff.mp hm'
    cases hw
    exact hvalue w hv
  | remove key | pop =>
    refine ⟨fun m' hm' w hw => ?_, hs⟩
    cases hm'
    cases hw

/-- After an operation all objects are association lists as before. -/
theorem step_listed (hs : s.Listed) (op : Op) : (op.run s).Listed := by
  obtain ⟨hchange, hleft⟩ := supplied_listed hs op.change
  rw [Op.run]
  split
  · rename_i m s' hsupplied
    rw [hsupplied] at hchange hleft
    exact hleft.change op.target (hchange m rfl)
  · rename_i s' hsupplied
    rw [hsupplied] at hleft
    exact hleft

/-! ## §4 Runs -/

theorem run_listed (hs : s.Listed) (ops : List Op) : (run s ops).Listed := by
  induction ops generalizing s with
  | nil => exact hs
  | cons op ops ih => exact ih (step_listed hs op)

/-- In every object of the value each key leads to its one member. -/
def KeyedEverywhere (v : Live) : Prop := v.EveryObject Object.Keyed

theorem EveryObject.keyedEverywhere {v : Live} (h : v.Listed) : v.KeyedEverywhere :=
  fun p hp o ho => (h p hp o ho).keyed

/-- After every run each key leads to its one member, in every object at every level of all values
that are kept and of the value that was told last. -/
theorem run_keyed (ops : List Op) :
    (∀ i, ((run .empty ops).values i).KeyedEverywhere) ∧
      ∀ v, (run .empty ops).told = some v → v.KeyedEverywhere := by
  have hrun := run_listed Store.listed_empty ops
  exact ⟨fun i => (hrun.values i).keyedEverywhere, fun v hv => (hrun.told v hv).keyedEverywhere⟩

/-- An object with a repeated key is decoded, a copy of it is inserted into its own member, and then
the object is replaced by that member. What is removed from it in the end goes into a variant. -/
def replacedRun : List Op :=
  [⟨⟨0, []⟩, .assign (.decoded .borrowed 0 0
      [123, 34, 97, 34, 58, 49, 44, 34, 97, 34, 58, 123, 125, 125])⟩,
    ⟨⟨0, [.key [97]]⟩, .insert (.owned [98]) (.copied ⟨0, []⟩)⟩,
    ⟨⟨0, []⟩, .assign (.moved ⟨0, [.key [97]]⟩)⟩,
    ⟨⟨1, []⟩, .assign (.encoded 0 (.newtypeVariant [118] (.seq [])))⟩,
    ⟨⟨0, []⟩, .remove [98]⟩,
    ⟨⟨1, [.key [118]]⟩, .push .told⟩]

/-- The removed copy has one member, which is the later one of the two that were decoded. -/
theorem run_keyed_replaced :
    let removed : Live := .ofObject (.ofRows [(.owned [97], .ofObject .empty)])
    ((run .empty replacedRun).values 0).equals (.ofObject .empty) = true ∧
      ((run .empty replacedRun).values 1).equals
        (.ofObject (.ofRows [(.owned [118], .array [removed])])) = true ∧
      (∀ i, ((run .empty replacedRun).values i).KeyedEverywhere) ∧
      ∃ v, (run .empty (replacedRun.take 5)).told = some v ∧ v.equals removed = true ∧
        v.KeyedEverywhere := by
  intro removed
  have htold : (run .empty (replacedRun.take 5)).told.any (·.equals removed) = true := by
    decide +kernel
  obtain ⟨v, hv, hequals⟩ := (Option.any_eq_true _ _).mp htold
  exact ⟨by decide +kernel, by decide +kernel, (run_keyed replacedRun).1, v, hv, hequals,
    (run_keyed (replacedRun.take 5)).2 v hv⟩

end Live

end JsonTree
