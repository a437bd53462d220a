import JsonTree.Proofs.Decode.Trees
import JsonTree.Proofs.Live.Decode
import JsonTree.Proofs.Shape.Depth
import JsonTree.Proofs.Shape.Trees

/-!
# Two limits

Decoding and encoding look at the limit only where a container is opened, by a count of those that
are open. So of two runs over the same input, one under a narrow and one under a wide limit, the
first does what the second does, until it comes to a container that only the wide limit allows.
There it fails, and it says so.

## Main definitions

- `Narrowed`: the results of the two runs.

## Main statements

- `decode_narrowed`, `encode_narrowed`: both engines under two limits.
- `limits_sound_monotone`: what limits bound, what a wider limit changes, and what is counted.
-/

namespace JsonTree

/-! ## §1 Two runs -/

/-- The results of two runs, under a narrow and under a wide limit: they are the same, or the narrow
limit was exceeded. -/
inductive Narrowed {ε α : Type} (exceeded : ε → Prop) (narrow wide : Except ε α) : Prop where
  | same : narrow = wide → Narrowed exceeded narrow wide
  | stopped (e : ε) : narrow = .error e → exceeded e → Narrowed exceeded narrow wide

namespace Narrowed

variable {ε ε' α β : Type} {exceeded : ε → Prop} {narrow wide : Except ε α}

theorem bind {f g : α → Except ε β} (h : Narrowed exceeded narrow wide)
    (hstep : ∀ a, Narrowed exceeded (f a) (g a)) :
    Narrowed exceeded (narrow >>= f) (wide >>= g) := by
  cases h with
  | same heq =>
    subst heq
    cases narrow with
    | error e => exact .same rfl
    | ok a => exact hstep a
  | stopped e he hexceeded =>
    subst he
    exact .stopped e rfl hexceeded

theorem map (h : Narrowed exceeded narrow wide) (f : α → β) :
    Narrowed exceeded (f <$> narrow) (f <$> wide) := by
  cases h with
  | same heq => exact .same (congrArg (f <$> ·) heq)
  | stopped e he hexceeded =>
    subst he
    exact .stopped e rfl hexceeded

/-- A step that does not look at the limit. -/
theorem after {f g : β → Except ε α} (x : Except ε β)
    (hstep : ∀ b, Narrowed exceeded (f b) (g b)) : Narrowed exceeded (x >>= f) (x >>= g) :=
  bind (.same rfl) hstep

theorem mapError {exceeded' : ε' → Prop} {f : ε → ε'} (h : Narrowed exceeded narrow wide)
    (hf : ∀ e, exceeded e → exceeded' (f e)) :
    Narrowed exceeded' (narrow.mapError f) (wide.mapError f) := by
  cases h with
  | same heq => exact .same (congrArg (Except.mapError f) heq)
  | stopped e he hexceeded =>
    subst he
    exact .stopped (f e) rfl (hf e hexceeded)

/-- What succeeds under the narrow limit gives the same under the wide one. -/
theorem ok (h : Narrowed exceeded narrow wide) {a : α} (hok : narrow = .ok a) : wide = .ok a := by
  cases h with
  | same heq => exact heq ▸ hok
  | stopped e he _ => cases he.symm.trans hok

/-- What fails under the narrow limit only fails because of it. -/
theorem error (h : Narrowed exceeded narrow wide) {a : α} {e : ε} (hok : wide = .ok a)
    (herror : narrow = .error e) : exceeded e := by
  cases h with
  | same heq => cases (heq ▸ herror).symm.trans hok
  | stopped e' he hexceeded =>
    obtain rfl := Except.error.inj (he.symm.trans herror)
    exact hexceeded

end Narrowed

/-! ## §2 Decoding -/

namespace Decode

/-- The fault of a container beyond the limit. -/
def Exceeded (f : Fault) : Prop := f.cause = .depthExceeded

variable {form : Representation} {narrow wide : Reader Value}

theorem readElements_narrowed (h : ∀ c, Narrowed Exceeded (narrow c) (wide c)) (n : Nat)
    (c : Cursor) : Narrowed Exceeded (readElements narrow n c) (readElements wide n c) := by
  induction n generalizing c with
  | zero => exact .same rfl
  | succ n ih =>
    exact (h c).bind fun (_, c) => (ih c.skip).bind fun _ => .same rfl

theorem readMembers_narrowed (h : ∀ c, Narrowed Exceeded (narrow c) (wide c)) (n : Nat)
    (c : Cursor) :
    Narrowed Exceeded (readMembers form narrow n c) (readMembers form wide n c) := by
  induction n generalizing c with
  | zero => exact .same rfl
  | succ n ih =>
    exact .after c.skip.string fun _ =>
      (h c.skip.skip).bind fun (_, c) => (ih c.skip).bind fun _ => .same rfl

/-- A value at any cursor. Which limit it is read under matters at its brackets only. -/
theorem readValue_narrowed {levels levels' : Nat} (hle : levels ≤ levels') (root : Bool)
    (c : Cursor) :
    Narrowed Exceeded (readValue form levels root c) (readValue form levels' root c) := by
  induction levels generalizing levels' root c with
  | zero =>
    -- With no level left every bracket is at fault, and an atom needs none.
    by_cases harray : c.skip.byte = Byte.openArray
    · rw [readValue_of_array harray]
      exact .stopped _ rfl rfl
    by_cases hobject : c.skip.byte = Byte.openObject
    · rw [readValue_of_object hobject]
      exact .stopped _ rfl rfl
    rw [readValue_of_atom harray hobject, readValue_of_atom harray hobject]
    exact .same rfl
  | succ levels ih =>
    obtain ⟨levels', rfl⟩ : ∃ n, levels' = n + 1 := ⟨levels' - 1, by omega⟩
    have hinner := ih (Nat.le_of_succ_le_succ hle) false
    by_cases harray : c.skip.byte = Byte.openArray
    · rw [readValue_of_array harray, readValue_of_array harray]
      by_cases hcount : c.skip.count = 0
      · simp only [hcount, if_true]
        exact .same rfl
      · simp only [hcount, if_false]
        exact (readElements_narrowed hinner _ _).map _
    by_cases hobject : c.skip.byte = Byte.openObject
    · rw [readValue_of_object hobject, readValue_of_object hobject]
      by_cases hcount : c.skip.count = 0
      · simp only [hcount, if_true]
        exact .same rfl
      · simp only [hcount, if_false]
        exact (readMembers_narrowed hinner _ _).map _
    rw [readValue_of_atom harray hobject, readValue_of_atom harray hobject]
    exact .same rfl

end Decode

variable {requested larger : Nat}

/-- Decoding under two limits. -/
theorem decode_narrowed (hle : effectiveDepth requested ≤ effectiveDepth larger)
    (form : Representation) (input : Bytes) :
    Narrowed (fun e : ParseError => e.cause = .depthExceeded) (decode form requested input)
      (decode form larger input) := by
  have hread : Narrowed Decode.Exceeded (Decode.readInput form requested input)
      (Decode.readInput form larger input) :=
    .after (Cursor.ofInput input) fun c =>
      (Decode.readValue_narrowed hle true c).bind fun _ => .same rfl
  rw [decode_eq_readInput, decode_eq_readInput]
  exact hread.mapError fun _ hexceeded => hexceeded

/-! ## §3 Encoding -/

namespace Shape

/-- The failure of a container beyond a limit. -/
def Exceeded (limit : Nat) (e : EncodeError) : Prop := e = .depthExceeded limit

variable {limit limit' : Nat}

theorem descend_narrowed {α : Type} {f g : Nat → Except EncodeError α} (hle : limit ≤ limit')
    {depth : Nat} (h : Narrowed (Exceeded limit) (f (depth + 1)) (g (depth + 1))) :
    Narrowed (Exceeded limit) (descend limit depth >>= f) (descend limit' depth >>= g) := by
  by_cases hwithin : depth + 1 ≤ limit
  · rw [descend, descend, if_neg (by omega), if_neg (by omega)]
    exact h
  · rw [descend, if_pos (by omega)]
    exact .stopped _ rfl rfl

mutual

/-- A shape at any depth. -/
theorem encodeAt_narrowed (hle : limit ≤ limit') (depth : Nat) (s : Shape) :
    Narrowed (Exceeded limit) (s.encodeAt limit depth) (s.encodeAt limit' depth) := by
  cases s with
  | bytes => exact descend_narrowed hle (.same rfl)
  | present datum => exact encodeAt_narrowed hle depth datum
  | newtypeStruct datum => exact encodeAt_narrowed hle depth datum
  | newtypeVariant name datum =>
    exact descend_narrowed hle ((encodeAt_narrowed hle _ datum).map _)
  | seq elements | tuple elements | tupleStruct elements =>
    exact descend_narrowed hle ((encodeElements_narrowed hle _ elements).map _)
  | tupleVariant name elements =>
    exact descend_narrowed hle
      (descend_narrowed hle ((encodeElements_narrowed hle _ elements).map _))
  | map entries => exact descend_narrowed hle ((encodeEntries_narrowed hle _ .empty entries).map _)
  | struct fields => exact descend_narrowed hle ((encodeFields_narrowed hle _ .empty fields).map _)
  | structVariant name fields =>
    exact descend_narrowed hle
      (descend_narrowed hle ((encodeFields_narrowed hle _ .empty fields).map _))
  | _ => exact .same rfl

theorem encodeElements_narrowed (hle : limit ≤ limit') (depth : Nat) (elements : List Shape) :
    Narrowed (Exceeded limit) (encodeElements limit depth elements)
      (encodeElements limit' depth elements) := by
  cases elements with
  | nil => exact .same rfl
  | cons datum elements =>
    exact (encodeAt_narrowed hle depth datum).bind fun _ =>
      (encodeElements_narrowed hle depth elements).bind fun _ => .same rfl

theorem encodeEntries_narrowed (hle : limit ≤ limit') (depth : Nat) (o : Object Slice Live)
    (entries : List (Shape × Shape)) :
    Narrowed (Exceeded limit) (encodeEntries limit depth o entries)
      (encodeEntries limit' depth o entries) := by
  cases entries with
  | nil => exact .same rfl
  | cons entry entries =>
    exact .after entry.1.key fun _ => (encodeAt_narrowed hle depth entry.2).bind fun _ =>
      encodeEntries_narrowed hle depth _ entries

theorem encodeFields_narrowed (hle : limit ≤ limit') (depth : Nat) (o : Object Slice Live)
    (fields : List (Bytes × Shape)) :
    Narrowed (Exceeded limit) (encodeFields limit depth o fields)
      (encodeFields limit' depth o fields) := by
  cases fields with
  | nil => exact .same rfl
  | cons field fields =>
    exact (encodeAt_narrowed hle depth field.2).bind fun _ =>
      encodeFields_narrowed hle depth _ fields

end

end Shape

/-- Encoding under two limits. -/
theorem encode_narrowed (hle : effectiveDepth requested ≤ effectiveDepth larger) (s : Shape) :
    Narrowed (Shape.Exceeded (effectiveDepth requested)) (encode requested s) (encode larger s) :=
  (Shape.encodeAt_narrowed hle 0 s).map Live.contents

/-! ## §4 Both engines -/

/-- What decoding and encoding give is nested within the limit. A wider limit leaves every success
as it is, and what it turns into a success has failed because of the depth. Wherever the decoder
comes to, what its counter still allows is what the levels that are left allow, and behind the value
there its counter is what it was before. Wherever the encoder comes to in a shape, the depth it has
counted is the number of containers around that place, which is within the limit, and it is this
number that a datum sees there. -/
theorem limits_sound_monotone (requested : Nat) :
    (∀ form input v, decode form requested input = .ok v → v.nesting ≤ effectiveDepth requested) ∧
    (∀ s v, encode requested s = .ok v → v.nesting ≤ effectiveDepth requested) ∧
    (∀ larger, effectiveDepth requested ≤ effectiveDepth larger →
      (∀ form input,
        (∀ v, decode form requested input = .ok v → decode form larger input = .ok v) ∧
        ∀ v e, decode form larger input = .ok v → decode form requested input = .error e →
          e.cause = .depthExceeded) ∧
      ∀ s,
        (∀ v, encode requested s = .ok v → encode larger s = .ok v) ∧
        ∀ v e, encode larger s = .ok v → encode requested s = .error e →
          e = .depthExceeded (effectiveDepth requested)) ∧
    (∀ (form : Representation) (buffer ahead : Nat) (root : Bool) (s : Decode.State),
      s.depth ≤ effectiveDepth requested → s.cursor.rest.length ≤ ahead →
      (fun x => (x.1.contents, x.2)) <$>
          Decode.parseValue ⟨form, buffer, effectiveDepth requested⟩ ahead root s =
        (fun y => (y.1, ⟨y.2, s.depth⟩)) <$>
          Decode.readValue form (effectiveDepth requested - s.depth) root s.cursor) ∧
    ∀ context : Shape.Context,
      Shape.Reaches (effectiveDepth requested) context.levels
        (fun datum => encode requested (context.fill datum)) ∧
      encode requested (context.fill .depth) =
        encode requested (context.fill (.int .u64 context.levels)) := by
  refine ⟨fun _ _ _ => decode_nesting_le, fun _ _ => encode_nesting_le, fun larger hle => ?_,
    fun form buffer ahead root s hdepth hahead => ?_,
    fun context => ⟨?_, Shape.encode_fill_depth requested context⟩⟩
  · have hdecode := decode_narrowed hle
    have hencode := encode_narrowed hle
    exact ⟨fun form input =>
        ⟨fun _ => (hdecode form input).ok, fun _ _ => (hdecode form input).error⟩,
      fun s => ⟨fun _ => (hencode s).ok, fun _ _ => (hencode s).error⟩⟩
  · exact Decode.parseValue_eq_readValue _ root hdepth hahead
  · have hreaches := context.reaches (Nat.zero_le (effectiveDepth requested))
    rw [Nat.zero_add] at hreaches
    exact hreaches.map Live.contents

/-- One level, two levels, and the two levels of a tuple variant, under limits of one and of two. -/
theorem limits_sound_monotone_twoLevels :
    effectiveDepth 1 ≤ effectiveDepth 2 ∧
      (decode .borrowed 1 [91, 93] = .ok (.array []) ∧ (Value.array []).nesting ≤ 1 ∧
        decode .borrowed 2 [91, 93] = .ok (.array [])) ∧
      (decode .borrowed 2 [91, 91, 93, 93] = .ok (.array [.array []]) ∧
        ∃ e, decode .borrowed 1 [91, 91, 93, 93] = .error e ∧ e.cause = .depthExceeded) ∧
      (encode 1 (.seq [.depth]) = .ok (.array [.i64 1]) ∧
        encode 2 (.seq [.depth]) = .ok (.array [.i64 1])) ∧
      encode 2 (.tupleVariant [118] [.depth]) = .ok (.object [(.owned [118], .array [.i64 2])]) ∧
      encode 2 (.tupleVariant [118] [.depth]) = encode 2 (.tupleVariant [118] [.int .u64 2]) ∧
      ∃ e, encode 1 (.tupleVariant [118] [.depth]) = .error e ∧ e = .depthExceeded 1 := by
  obtain ⟨hdecode, -, hlarger, -⟩ := limits_sound_monotone 1
  obtain ⟨-, -, -, -, hcontext⟩ := limits_sound_monotone 2
  obtain ⟨hwiderText, hwiderShape⟩ := hlarger 2 (by decide)
  have hone : decode .borrowed 1 [91, 93] = .ok (.array []) := rfl
  have htwo : decode .borrowed 2 [91, 91, 93, 93] = .ok (.array [.array []]) := rfl
  have hseq : encode 1 (.seq [.depth]) = .ok (.array [.i64 1]) := rfl
  have hvariant : encode 2 (.tupleVariant [118] [.depth]) =
      .ok (.object [(.owned [118], .array [.i64 2])]) := rfl
  exact ⟨by decide, ⟨hone, hdecode _ _ _ hone, (hwiderText _ _).1 _ hone⟩,
    ⟨htwo, _, rfl, (hwiderText _ _).2 _ _ htwo rfl⟩, ⟨hseq, (hwiderShape _).1 _ hseq⟩, hvariant,
    (hcontext (.tupleVariant [118] [] .hole [])).2, _, rfl, (hwiderShape _).2 _ _ hvariant rfl⟩

end JsonTree
