import JsonTree.Proofs.Object.Assoc
import JsonTree.Proofs.Result
import JsonTree.Proofs.Value.Changes

/-!
# Contexts

A part of a value is changed in place, and everything around it stays as it is. The surroundings are
a context: for each step of the path the container around the rest of it, with a hole where the step
leads. Which hole that is depends on keys and positions only, never on what fills it. So the value
before and the value after a change are one context around two parts, whether or not keys repeat.

## Main definitions

- `Value.Frame`, `Value.fill`: a container with a hole, and a context of them.
- `Value.SameShell`: containers with the same kind, size and keys.
- `Value.Mutator`, `Value.apply`, `Value.mutate`: the changes, alone and at the end of a path.

## Main statements

- `Value.Frame.step?_plug`: what a step leads to, whatever fills the hole.
- `Value.exists_context`: a path that resolves has a context, and a change refills it.
- `Value.at?_fill`, `Value.at?_fill_other`: lookups behind the path and beside it.
-/

namespace JsonTree

/-! ## §1 Rows that count -/

namespace Rows

variable {σ α : Type} [Readable σ] {rows : Rows σ α}

/-- The row that counts for a key has that key. -/
theorem getElem?_of_counting? {key : Bytes} {i : Nat} (h : rows.counting? key = some i) :
    ∃ row, rows[i]? = some row ∧ row.1.bytes = key := by
  rw [counting?] at h
  split at h
  · exact getElem?_of_first? h
  · exact getElem?_of_last? h

end Rows

namespace Value

/-- The member that is found is the one in the row that counts. -/
theorem get?_rows (rows : List (Text × Value)) (key : Bytes) :
    (object rows).get? key = (Rows.counting? rows key).bind fun i => (rows[i]?).map (·.2) :=
  (Object.followsRows_ofRows rows).get? key

/-! ## §2 Containers with a hole -/

/-- A container in which one element or the value of one member is left out. -/
inductive Frame where
  | element (before after : List Value)
  | member (before : List (Text × Value)) (key : Text) (after : List (Text × Value))

namespace Frame

/-- The container with the hole filled. -/
def plug (w : Value) : Frame → Value
  | .element before after => .array (before ++ w :: after)
  | .member before key after => .object (before ++ (key, w) :: after)

/-- The one step that may lead to the hole. -/
def step : Frame → Step
  | .element before _ => .index before.length
  | .member _ key _ => .key key.bytes

/-- The step leads to the hole, whatever fills it. -/
structure Leads (f : Frame) (s : Step) : Prop where
  step_eq : s = f.step
  step? : ∀ w, (f.plug w).step? s = some w

/-- Outside of the hole nothing depends on what fills it. -/
theorem getElem?_hole {α : Type} (before after : List α) (a b : α) {i : Nat}
    (h : i ≠ before.length) : (before ++ a :: after)[i]? = (before ++ b :: after)[i]? := by
  rcases Nat.lt_or_gt_of_ne h with hlt | hgt
  · rw [List.getElem?_append_left hlt, List.getElem?_append_left hlt]
  · obtain ⟨k, rfl⟩ : ∃ k, i = before.length + (k + 1) := ⟨i - before.length - 1, by omega⟩
    rw [List.getElem?_append_right (by omega), List.getElem?_append_right (by omega),
      Nat.add_sub_cancel_left, List.getElem?_cons_succ, List.getElem?_cons_succ]

/-- A list is cut at one of its elements. -/
theorem exists_split {α : Type} {xs : List α} {i : Nat} {x : α} (h : xs[i]? = some x) :
    ∃ before after, xs = before ++ x :: after ∧ before.length = i := by
  obtain ⟨hi, rfl⟩ := List.getElem?_eq_some_iff.mp h
  refine ⟨xs.take i, xs.drop (i + 1), ?_, List.length_take_of_le (Nat.le_of_lt hi)⟩
  rw [List.getElem_cons_drop, List.take_append_drop]

theorem leads_element (before after : List Value) :
    (element before after).Leads (.index before.length) where
  step_eq := rfl
  step? w := by
    change (before ++ w :: after)[before.length]? = some w
    simp

variable {before after : List (Text × Value)} {key : Text} {bytes : Bytes}

theorem counting?_plug (w w' : Value) :
    Rows.counting? (before ++ (key, w) :: after) bytes =
      Rows.counting? (before ++ (key, w') :: after) bytes :=
  Rows.counting?_of_keys (by simp) bytes

theorem leads_member {w : Value}
    (h : Rows.counting? (before ++ (key, w) :: after) bytes = some before.length) :
    (member before key after).Leads (.key bytes) where
  step_eq := by
    obtain ⟨row, hrow, hkey⟩ := Rows.getElem?_of_counting? h
    obtain rfl : (key, w) = row := by simpa using hrow
    exact congrArg Step.key hkey.symm
  step? w' := by
    change (object (before ++ (key, w') :: after)).get? bytes = some w'
    rw [get?_rows, counting?_plug w' w, h]
    simp

/-- A step leads to the hole whatever fills it, or it leads to the same whatever fills it. -/
theorem step?_plug (f : Frame) (s : Step) :
    f.Leads s ∨ ∃ part, ∀ w, (f.plug w).step? s = part := by
  cases f with
  | element before after =>
    cases s with
    | key bytes => exact .inr ⟨none, fun w => rfl⟩
    | index i =>
      by_cases hi : i = before.length
      · exact .inl (hi ▸ leads_element before after)
      · exact .inr ⟨(before ++ .null :: after)[i]?, fun w => getElem?_hole before after w .null hi⟩
  | member before key after =>
    cases s with
    | index i => exact .inr ⟨none, fun w => rfl⟩
    | key bytes =>
      cases hcounting : Rows.counting? (before ++ (key, .null) :: after) bytes with
      | none =>
        refine .inr ⟨none, fun w => ?_⟩
        change (object (before ++ (key, w) :: after)).get? bytes = none
        rw [get?_rows, counting?_plug w .null, hcounting, Option.bind_none]
      | some i =>
        by_cases hi : i = before.length
        · exact .inl (leads_member (hi ▸ hcounting))
        · refine .inr ⟨((before ++ (key, .null) :: after)[i]?).map (·.2), fun w => ?_⟩
          change (object (before ++ (key, w) :: after)).get? bytes = _
          rw [get?_rows, counting?_plug w .null, hcounting, Option.bind_some,
            getElem?_hole before after (key, w) (key, .null) hi]

/-- A step that resolves leads to the hole of a frame, and the part there is replaced by filling the
hole anew. -/
theorem exists_of_step? {v w : Value} {s : Step} (h : v.step? s = some w) :
    ∃ f : Frame, f.Leads s ∧ v = f.plug w ∧ ∀ w', v.replaceStep w' s = f.plug w' := by
  cases s with
  | index i =>
    cases v with
    | array elements =>
      obtain ⟨before, after, rfl, rfl⟩ := exists_split (h : elements[i]? = some w)
      exact ⟨.element before after, leads_element before after, rfl, fun w' => by
        simp [replaceStep, plug]⟩
    | null | bool | i64 | f64 | string | object => cases h
  | key bytes =>
    cases v with
    | object rows =>
      have hfound : (object rows).get? bytes = some w := h
      rw [get?_rows] at hfound
      obtain ⟨i, hcounting, hfound⟩ := Option.bind_eq_some_iff.mp hfound
      obtain ⟨⟨key, w'⟩, hrow, rfl⟩ := Option.map_eq_some_iff.mp hfound
      obtain ⟨before, after, rfl, rfl⟩ := exists_split hrow
      refine ⟨.member before key after, leads_member hcounting, rfl, fun part => ?_⟩
      have hmodify := (Object.followsRows_ofRows (before ++ (key, w') :: after)).modify bytes
        fun _ => part
      have hrows : (Object.ofRows (before ++ (key, w') :: after)).rows =
        before ++ (key, w') :: after := rfl
      rw [hrows, hcounting] at hmodify
      simp only [replaceStep, plug, hmodify]
      rw [List.modify_eq_set_getElem?, hrow]
      simp
    | null | bool | i64 | f64 | string | array => cases h

end Frame

/-! ## §3 Contexts -/

/-- Frames inside one another, the outermost first, with the innermost hole filled. -/
def fill : List Frame → Value → Value
  | [], w => w
  | f :: frames, w => f.plug (fill frames w)

/-- The steps of a path lead through the holes of some frames. -/
abbrev LeadsAlong : List Frame → List Step → Prop := List.Forall₂ Frame.Leads

/-- A path that resolves has a context around the part that it leads to, and a change of that part
refills the context. -/
theorem exists_context {v w : Value} {path : List Step} (h : v.at? path = some w) :
    ∃ frames, LeadsAlong frames path ∧ v = fill frames w ∧
      ∀ {ε α : Type} (change : Value → Except ε (α × Value)),
        v.modifyAt? change path =
          some ((change w).map fun (answer, part) => (answer, fill frames part)) := by
  induction path generalizing v with
  | nil =>
    cases h
    refine ⟨[], .nil, rfl, fun change => congrArg some ?_⟩
    cases change w <;> rfl
  | cons s path ih =>
    obtain ⟨inner, hinner, h⟩ := Option.bind_eq_some_iff.mp h
    obtain ⟨frames, halong, hfill, hmodify⟩ := ih h
    obtain ⟨f, hleads, hplug, hreplace⟩ := Frame.exists_of_step? hinner
    refine ⟨f :: frames, .cons hleads halong, ?_, fun change => ?_⟩
    · rw [hplug, fill, hfill]
    · simp only [modifyAt?, hinner, Option.bind_eq_bind, Option.bind_some, hmodify]
      cases change w with
      | error e => rfl
      | ok result => exact congrArg (some ∘ Except.ok ∘ Prod.mk result.1) (hreplace _)

theorem modifyAt?_eq_none {ε α : Type} {v : Value} {path : List Step} (h : v.at? path = none)
    (change : Value → Except ε (α × Value)) : v.modifyAt? change path = none := by
  induction path generalizing v with
  | nil => cases h
  | cons s path ih =>
    rw [modifyAt?]
    cases hinner : v.step? s with
    | none => rfl
    | some inner =>
      rw [at?, hinner] at h
      have hnone := ih (h : inner.at? path = none)
      simp only [Option.bind_eq_bind, Option.bind_some, hnone, Option.bind_none]

/-- Putting back what a step leads to changes nothing. -/
theorem replaceStep_of_step? {v w : Value} {s : Step} (h : v.step? s = some w) :
    v.replaceStep w s = v := by
  obtain ⟨f, -, hplug, hreplace⟩ := Frame.exists_of_step? h
  rw [hreplace, hplug]

/-- A change below a part is a change of the part, whether or not it can be made. -/
theorem modifyAt_cons {ε α : Type} (v : Value) (change : Value → Except ε (α × Value)) (s : Step)
    (path : List Step) :
    v.modifyAt change (s :: path) =
      match v.step? s with
      | none => (none, v)
      | some part =>
        ((part.modifyAt change path).1, v.replaceStep (part.modifyAt change path).2 s) := by
  rw [modifyAt, modifyAt?]
  cases hpart : v.step? s with
  | none => rfl
  | some part =>
    have hself := replaceStep_of_step? hpart
    simp only [modifyAt, Option.bind_eq_bind, Option.bind_some]
    rcases part.modifyAt? change path with _ | e | ⟨answer, left⟩
    · exact Prod.ext rfl hself.symm
    · exact Prod.ext rfl hself.symm
    · rfl

section

variable {frames : List Frame} {path : List Step}

/-- Behind the path everything is that of the part in the hole. -/
theorem at?_fill (h : LeadsAlong frames path) (w : Value) (rest : List Step) :
    (fill frames w).at? (path ++ rest) = w.at? rest := by
  induction h with
  | nil => rfl
  | cons hleads _ ih => rw [fill, List.cons_append, at?, hleads.step?, ← ih]; rfl

/-- Beside the path nothing depends on what is in the hole. -/
theorem at?_fill_other (h : LeadsAlong frames path) (w w' : Value) {other : List Step}
    (hpath : ¬ path <+: other) (hother : ¬ other <+: path) :
    (fill frames w).at? other = (fill frames w').at? other := by
  induction h generalizing other with
  | nil => exact absurd List.nil_prefix hpath
  | @cons f s frames path hleads _ ih =>
    cases other with
    | nil => exact absurd List.nil_prefix hother
    | cons s' other =>
      rw [fill, fill, at?, at?]
      by_cases hs : s' = s
      -- The other path goes through the same hole, and parts from this one further down.
      · subst hs
        rw [List.prefix_cons_inj] at hpath hother
        rw [hleads.step?, hleads.step?]
        exact ih hpath hother
      · rcases f.step?_plug s' with hleads' | ⟨part, hpart⟩
        · exact absurd (hleads'.step_eq.trans hleads.step_eq.symm) hs
        · rw [hpart, hpart]

end

/-! ## §4 Ancestors -/

/-- The keys of a value in their order, with the owners of their bytes. -/
def keyTexts : Value → List Text
  | .object rows => rows.map (·.1)
  | _ => []

/-- Two values of one kind and size, with the same keys in the same order. -/
structure SameShell (v v' : Value) : Prop where
  kind_eq : v.kind = v'.kind
  size_eq : v.size = v'.size
  keys_eq : v.keyTexts = v'.keyTexts

theorem Frame.sameShell (f : Frame) (w w' : Value) : SameShell (f.plug w) (f.plug w') := by
  cases f with
  | element before after => exact ⟨rfl, by simp [plug, size], rfl⟩
  | member before key after => exact ⟨rfl, by simp [plug, size], by simp [plug, keyTexts]⟩

/-- Above the hole only what the holes hold changes. -/
theorem sameShell_fill {frames : List Frame} {before after : List Step} {s : Step}
    (h : LeadsAlong frames (before ++ s :: after)) (w w' : Value) :
    ∃ u u', (fill frames w).at? before = some u ∧ (fill frames w').at? before = some u' ∧
      SameShell u u' := by
  induction before generalizing frames with
  | nil =>
    cases h with
    | @cons f _ frames _ _ _ =>
      exact ⟨_, _, rfl, rfl, f.sameShell (fill frames w) (fill frames w')⟩
  | cons s' before ih =>
    cases h with
    | cons hleads halong =>
      obtain ⟨u, u', hu, hu', hshell⟩ := ih halong
      refine ⟨u, u', ?_, ?_, hshell⟩
      · rw [fill, at?, hleads.step?]
        exact hu
      · rw [fill, at?, hleads.step?]
        exact hu'

/-! ## §5 Mutators -/

/-- The changes of a value. -/
inductive Mutator (σ α : Type) where
  | insert (key : Held σ) (member : α)
  | remove (key : Bytes)
  | push (element : α)
  | pop
  /-- Another value is put in its place, copied or moved from elsewhere. -/
  | assign (v : α)

/-- The value that a change brings in. -/
def Mutator.value? {σ α : Type} : Mutator σ α → Option α
  | .insert _ v | .push v | .assign v => some v
  | .remove _ | .pop => none

/-- The kind that a change needs, and the failure on other kinds. -/
def Mutator.needs {σ α : Type} : Mutator σ α → Option (Kind × AccessError)
  | .insert _ _ | .remove _ => some (.object, ⟨.notAnObject⟩)
  | .push _ | .pop => some (.array, ⟨.notAnArray⟩)
  | .assign _ => none

/-- A change of a value alone: what it tells, and what it leaves. -/
def apply (w : Value) : Mutator Bytes Value → Except AccessError (Option Value × Value)
  | .insert key member => w.insert key member
  | .remove key => w.remove key
  | .push element => (none, ·) <$> w.push element
  | .pop => w.pop
  | .assign v => .ok (none, v)

/-- A change fails exactly on values of other kinds than it needs. -/
theorem apply_eq_error_iff (m : Mutator Bytes Value) (w : Value) (e : AccessError) :
    w.apply m = .error e ↔ ∃ kind, m.needs = some (kind, e) ∧ w.kind ≠ kind := by
  cases m with
  | insert key member =>
    cases w <;> simp [apply, Value.insert, Mutator.needs, kind, eq_comm]
  | remove key =>
    cases w <;> simp [apply, Value.remove, Mutator.needs, kind, eq_comm]
  | push element =>
    rw [apply, map_eq_error_iff]
    cases w <;> simp [Value.push, Mutator.needs, kind, eq_comm]
  | pop =>
    cases w <;> simp [apply, Value.pop, Mutator.needs, kind, eq_comm]
  | assign v => simp [apply, Mutator.needs]

/-- Change the part at the end of a path: what the change gives, unless the path does not resolve,
and the whole value after it. -/
def mutate (v : Value) (path : List Step) (m : Mutator Bytes Value) :
    Option (Except AccessError (Option Value)) × Value :=
  v.modifyAt (·.apply m) path

section

variable {v w w' : Value} {path : List Step} {m : Mutator Bytes Value} {e : AccessError}
  {told : Option Value}

theorem mutate_of_none (h : v.at? path = none) (m : Mutator Bytes Value) :
    v.mutate path m = (none, v) := by
  rw [mutate, modifyAt, modifyAt?_eq_none h]

theorem mutate_of_error (h : v.at? path = some w) (hm : w.apply m = .error e) :
    v.mutate path m = (some (.error e), v) := by
  obtain ⟨frames, -, -, hmodify⟩ := exists_context h
  simp only [mutate, modifyAt, hmodify, hm, Except.map]

theorem mutate_of_ok (h : v.at? path = some w) (hm : w.apply m = .ok (told, w')) :
    ∃ frames, LeadsAlong frames path ∧ v = fill frames w ∧
      v.mutate path m = (some (.ok told), fill frames w') := by
  obtain ⟨frames, halong, hfill, hmodify⟩ := exists_context h
  exact ⟨frames, halong, hfill, by simp only [mutate, modifyAt, hmodify, hm, Except.map]⟩

end

end Value

end JsonTree
