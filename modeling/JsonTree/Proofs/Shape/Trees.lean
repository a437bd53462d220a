import JsonTree.Proofs.Shape.Outcome
import JsonTree.Proofs.Value.Everywhere

/-!
# How deep encoded trees are nested

The containers of an encoded tree are nested within the limit, as those of a decoded tree are,
because each of them was opened.

## Main statements

- `Shape.Denotes.nesting_le`: the calls of a shape bound the nesting of its meaning.
- `encode_nesting_le`: what holds of every encoded tree.
-/

namespace JsonTree

/-! ## §1 Nesting -/

namespace Shape

variable {limit : Nat}

/-- A container that is opened lies within the limit. -/
theorem passes_opening_iff {level : Nat} : (Call.opening level).Passes limit ↔ level ≤ limit := by
  constructor
  · intro h
    by_contra hbeyond
    exact h _ (.opening (Nat.lt_of_not_le hbeyond))
  · rintro hwithin e ⟨hbeyond⟩
    exact absurd hwithin (Nat.not_le.mpr hbeyond)

theorem nestingOfRows_gathered_le {n : Nat} {members : List (Bytes × Value)}
    (h : ∀ member ∈ members, member.2.nesting ≤ n) :
    Value.nestingOfRows (gathered members) ≤ n :=
  Value.nestingOfRows_le_iff.mpr
    (forall_mem_gathered (P := fun v => v.nesting ≤ n) (Nat.zero_le n) h)

mutual

/-- The calls of a shape bound the nesting of its meaning. -/
theorem Denotes.nesting_le {depth : Nat} {s : Shape} {v : Value} (h : Denotes depth s v) :
    (∀ c ∈ s.calls depth, c.Passes limit) → v.nesting ≤ limit - depth := by
  intro hcalls
  cases h with
  | present h => exact h.nesting_le hcalls
  | newtypeStruct h => exact h.nesting_le hcalls
  | @newtypeVariant _ _ _ v h =>
    simp only [calls, List.forall_mem_cons, passes_opening_iff] at hcalls
    have hv := h.nesting_le hcalls.2
    simp only [Value.nesting, Value.nestingOfRows]
    omega
  | @bytes _ content =>
    simp only [calls, List.forall_mem_cons, passes_opening_iff] at hcalls
    have hbytes : Value.nestingOfElements (content.map fun b => .i64 (Int64.ofNat b.toNat)) ≤ 0 :=
      Value.nestingOfElements_le_iff.mpr (List.forall_mem_map.mpr fun _ _ => Nat.le_refl 0)
    simp only [Value.nesting]
    omega
  | @seq _ _ vs h | @tuple _ _ vs h | @tupleStruct _ _ vs h =>
    simp only [calls, List.forall_mem_cons, passes_opening_iff] at hcalls
    have hvs := Value.nestingOfElements_le_iff.mpr (h.nesting_le hcalls.2)
    simp only [Value.nesting]
    omega
  | @tupleVariant _ _ _ vs h =>
    simp only [calls, List.forall_mem_cons, passes_opening_iff] at hcalls
    have hvs := Value.nestingOfElements_le_iff.mpr (h.nesting_le hcalls.2.2)
    simp only [Value.nesting, Value.nestingOfRows]
    omega
  | @map _ _ members h | @struct _ _ members h =>
    simp only [calls, List.forall_mem_cons, passes_opening_iff] at hcalls
    have hrows := nestingOfRows_gathered_le (h.nesting_le hcalls.2)
    simp only [Value.nesting]
    omega
  | @structVariant _ _ _ members h =>
    simp only [calls, List.forall_mem_cons, passes_opening_iff] at hcalls
    have hrows := nestingOfRows_gathered_le (h.nesting_le hcalls.2.2)
    simp only [Value.nesting, Value.nestingOfRows]
    omega
  | _ => exact Nat.zero_le _

theorem DenotesEach.nesting_le {depth : Nat} {elements : List Shape} {vs : List Value}
    (h : DenotesEach depth elements vs) :
    (∀ c ∈ callsOfElements depth elements, c.Passes limit) →
      ∀ v ∈ vs, v.nesting ≤ limit - depth := by
  intro hcalls
  cases h with
  | nil => exact List.forall_mem_nil _
  | cons hv hvs =>
    obtain ⟨hfirst, hrest⟩ := List.forall_mem_append.mp hcalls
    exact List.forall_mem_cons.mpr ⟨hv.nesting_le hfirst, hvs.nesting_le hrest⟩

theorem DenotesEntries.nesting_le {depth : Nat} {entries : List (Shape × Shape)}
    {members : List (Bytes × Value)} (h : DenotesEntries depth entries members) :
    (∀ c ∈ callsOfEntries depth entries, c.Passes limit) →
      ∀ member ∈ members, member.2.nesting ≤ limit - depth := by
  intro hcalls
  cases h with
  | nil => exact List.forall_mem_nil _
  | cons _ hv hmembers =>
    obtain ⟨-, hcalls⟩ := List.forall_mem_cons.mp hcalls
    obtain ⟨hfirst, hrest⟩ := List.forall_mem_append.mp hcalls
    exact List.forall_mem_cons.mpr ⟨hv.nesting_le hfirst, hmembers.nesting_le hrest⟩

theorem DenotesFields.nesting_le {depth : Nat} {fields : List (Bytes × Shape)}
    {members : List (Bytes × Value)} (h : DenotesFields depth fields members) :
    (∀ c ∈ callsOfFields depth fields, c.Passes limit) →
      ∀ member ∈ members, member.2.nesting ≤ limit - depth := by
  intro hcalls
  cases h with
  | nil => exact List.forall_mem_nil _
  | cons hv hmembers =>
    obtain ⟨hfirst, hrest⟩ := List.forall_mem_append.mp hcalls
    exact List.forall_mem_cons.mpr ⟨hv.nesting_le hfirst, hmembers.nesting_le hrest⟩

end

end Shape

/-! ## §2 Encoded trees -/

variable {requested : Nat} {s : Shape} {v : Value}

/-- The calls of an encoded shape pass, and the tree is its meaning. -/
theorem denotes_of_encode (h : encode requested s = .ok v) :
    (∀ c ∈ s.calls 0, c.Passes (effectiveDepth requested)) ∧ s.Denotes 0 v := by
  have houtcome := Shape.contentsAt_outcome (effectiveDepth requested) 0 s
  rwa [← encode_eq_contentsAt, h] at houtcome

/-- The containers of an encoded tree are nested within the limit. -/
theorem encode_nesting_le (h : encode requested s = .ok v) :
    v.nesting ≤ effectiveDepth requested :=
  (denotes_of_encode h).2.nesting_le (denotes_of_encode h).1

end JsonTree
