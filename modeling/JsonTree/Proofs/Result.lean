/-!
# Results of steps

Reading is a sequence of steps that may fail. What a sequence gives is taken apart into what its
steps give, and two sequences come to the same if their steps do.

## Main definitions

- `SameOutcome`: both fail alike, or both succeed with answers that are related.
-/

namespace JsonTree

variable {ε α β : Type}

theorem bind_eq_ok_iff {x : Except ε α} {f : α → Except ε β} {b : β} :
    x >>= f = .ok b ↔ ∃ a, x = .ok a ∧ f a = .ok b := by
  cases x with
  | error e =>
    constructor
    · intro h
      cases h
    · rintro ⟨a, h, -⟩
      cases h
  | ok a =>
    constructor
    · exact fun h => ⟨a, rfl, h⟩
    · rintro ⟨a', h, hf⟩
      cases h
      exact hf

theorem map_eq_ok_iff {x : Except ε α} {f : α → β} {b : β} :
    f <$> x = .ok b ↔ ∃ a, x = .ok a ∧ f a = b := by
  cases x with
  | error e =>
    constructor
    · intro h
      cases h
    · rintro ⟨a, h, -⟩
      cases h
  | ok a =>
    constructor
    · intro h
      cases h
      exact ⟨a, rfl, rfl⟩
    · rintro ⟨a', h, hf⟩
      cases h
      exact congrArg Except.ok hf

theorem map_eq_error_iff {x : Except ε α} {f : α → β} {e : ε} :
    f <$> x = .error e ↔ x = .error e := by
  cases x with
  | error e' =>
    constructor
    · intro h
      cases h
      rfl
    · intro h
      cases h
      rfl
  | ok a =>
    constructor
    · intro h
      cases h
    · intro h
      cases h

theorem toOption_eq_some_iff {x : Except ε α} {a : α} : x.toOption = some a ↔ x = .ok a := by
  cases x <;> simp [Except.toOption]

/-- Two results come to the same: both fail alike, or both succeed with related answers. -/
inductive SameOutcome {α' : Type} (R : α → α' → Prop) : Except ε α → Except ε α' → Prop where
  | ok {a : α} {a' : α'} : R a a' → SameOutcome R (.ok a) (.ok a')
  | error (e : ε) : SameOutcome R (.error e) (.error e)

namespace SameOutcome

variable {α' β' : Type} {R : α → α' → Prop} {S : β → β' → Prop} {x : Except ε α} {x' : Except ε α'}

theorem bind (h : SameOutcome R x x') {f : α → Except ε β} {f' : α' → Except ε β'}
    (hf : ∀ a a', R a a' → SameOutcome S (f a) (f' a')) : SameOutcome S (x >>= f) (x' >>= f') := by
  cases h with
  | ok hR => exact hf _ _ hR
  | error e => exact .error e

theorem map (h : SameOutcome R x x') {f : α → β} {f' : α' → β'}
    (hf : ∀ a a', R a a' → S (f a) (f' a')) : SameOutcome S (f <$> x) (f' <$> x') := by
  cases h with
  | ok hR => exact .ok (hf _ _ hR)
  | error e => exact .error e

/-- Both go on from the same result. -/
theorem bind_same {γ : Type} (y : Except ε γ) {f : γ → Except ε β} {f' : γ → Except ε β'}
    (hf : ∀ c, SameOutcome S (f c) (f' c)) : SameOutcome S (y >>= f) (y >>= f') := by
  cases y with
  | error e => exact .error e
  | ok c => exact hf c

theorem mapError (h : SameOutcome R x x') {ε' : Type} (f : ε → ε') :
    SameOutcome R (x.mapError f) (x'.mapError f) := by
  cases h with
  | ok hR => exact .ok hR
  | error e => exact .error (f e)

/-- Where the second answer follows from the first, so does the second result. -/
theorem map_eq (h : SameOutcome R x x') {f : α → α'} (hf : ∀ a a', R a a' → f a = a') :
    f <$> x = x' := by
  cases h with
  | ok hR => exact congrArg Except.ok (hf _ _ hR)
  | error e => rfl

theorem exists_of_ok {a : α} (h : SameOutcome R (.ok a) x') : ∃ a', x' = .ok a' ∧ R a a' := by
  cases h with
  | ok hR => exact ⟨_, rfl, hR⟩

theorem exists_of_ok_right {a' : α'} (h : SameOutcome R x (.ok a')) : ∃ a, x = .ok a ∧ R a a' := by
  cases h with
  | ok hR => exact ⟨_, rfl, hR⟩

theorem mono (h : SameOutcome R x x') {R' : α → α' → Prop} (hR : ∀ a a', R a a' → R' a a') :
    SameOutcome R' x x' := by
  cases h with
  | ok ha => exact .ok (hR _ _ ha)
  | error e => exact .error e

/-- Only the second result goes on. -/
theorem bind_ok_right (h : SameOutcome R x x') {f' : α' → β'} {R' : α → β' → Prop}
    (hf : ∀ a a', R a a' → R' a (f' a')) : SameOutcome R' x (x' >>= fun a' => .ok (f' a')) := by
  cases h with
  | ok hR => exact .ok (hf _ _ hR)
  | error e => exact .error e

end SameOutcome

end JsonTree
