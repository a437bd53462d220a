import JsonTree.Proofs.Decode.Tokens
import JsonTree.Proofs.Text.Faults

/-!
# Where the readers of a string look

The pass over the input takes an escape for two bytes, the reader of a string for two, six or
twelve. The reader gets all input behind the opening quote, and most of the time it looks at the
next byte without asking whether there is one. Here it writes down every byte that it looks at and
every move that it makes, and it would say so if there were no byte. On a string token there always
is one: the quote that the pass found is never jumped over, because it is no digit, no letter of an
escape and no beginning of a second one.

## Main definitions

- `Watched`: results with the looks and the moves that led to them.
- `Watch.string`, `Watch.unescape`: the reader of a string, and its loop over the escapes.
- `Stays`: looks between two offsets, and moves past so many bytes without a gap.
- `Token.StaysInside`: a string token that its reader does not leave.

## Main statements

- `Watch.round_advances`: every round of the loop moves on, so that there is a last one.
- `Watch.escape_stays`: an escape, good or bad, is looked at up to the closing quote at most.
- `Watch.string_agrees`: a body is read up to its closing quote.
- `Token.staysInside_of_scan`: every string token of an input is read inside of it.
-/

namespace JsonTree

open Grammar

/-! ## §1 Readers that are watched -/

/-- Why a reader stops before it is done. -/
inductive Stop where
  /-- The input is at fault. -/
  | fault (f : Fault)
  /-- A byte was looked at where the input has none. -/
  | outside (offset : Nat)
deriving DecidableEq

/-- What a reader does at the input. -/
inductive Act where
  /-- It looks at the byte at an offset. -/
  | look (offset : Nat)
  /-- It moves on, past bytes from an offset on. -/
  | pass (offset count : Nat)

/-- A result, and what was done at the input for it, also where that failed. -/
structure Watched (α : Type) where
  result : Except Stop α
  acts : List Act

namespace Watched

variable {α β : Type}

instance : Monad Watched where
  pure a := ⟨.ok a, []⟩
  bind x f :=
    match x.result with
    | .error stop => ⟨.error stop, x.acts⟩
    | .ok a => ⟨(f a).result, x.acts ++ (f a).acts⟩

/-- Look at the byte at an offset, whether there is one or not. -/
def look (input : Bytes) (i : Nat) : Watched UInt8 :=
  ⟨input[i]?.elim (.error (.outside i)) .ok, [.look i]⟩

/-- Move past bytes from an offset on. -/
def pass (i count : Nat) : Watched Unit := ⟨.ok (), [.pass i count]⟩

/-- Find the input at fault at an offset. -/
def fail (cause : Cause) (i : Nat) : Watched α := ⟨.error (.fault ⟨cause, i⟩), []⟩

/-- The same result, with the proof that it is the result. -/
def attach : (x : Watched α) → Watched {a // x.result = .ok a}
  | ⟨.error stop, acts⟩ => ⟨.error stop, acts⟩
  | ⟨.ok a, acts⟩ => ⟨.ok ⟨a, rfl⟩, acts⟩

@[simp]
theorem result_pure (a : α) : (pure a : Watched α).result = .ok a := rfl

@[simp]
theorem result_bind (x : Watched α) (f : α → Watched β) :
    (x >>= f).result = x.result >>= fun a => (f a).result := by
  obtain ⟨result, acts⟩ := x
  cases result <;> rfl

theorem result_bind_ok {x : Watched α} {a : α} (h : x.result = .ok a) (f : α → Watched β) :
    (x >>= f).result = (f a).result := by
  rw [result_bind, h]
  rfl

theorem bind_ok {x : Watched α} {a : α} (h : x.result = .ok a) (f : α → Watched β) :
    x >>= f = ⟨(f a).result, x.acts ++ (f a).acts⟩ := by
  obtain ⟨result, acts⟩ := x
  cases h
  rfl

theorem bind_error {x : Watched α} {stop : Stop} (h : x.result = .error stop)
    (f : α → Watched β) : x >>= f = ⟨.error stop, x.acts⟩ := by
  obtain ⟨result, acts⟩ := x
  cases h
  rfl

theorem bind_eq_attach (x : Watched α) (f : α → Watched β) :
    x >>= f = x.attach >>= fun a => f a.val := by
  obtain ⟨result, acts⟩ := x
  cases result <;> rfl

end Watched

/-! ## §2 The readers of a string -/

namespace Watch

open Watched Escape

/-- The offset of the first quote or backslash from an offset on, else the end. -/
def delimiter (input : Bytes) (i : Nat) : Watched Nat :=
  if i < input.length then do
    let b ← look input i
    if Byte.endsRun b then pure i
    else do
      pass i 1
      delimiter input (i + 1)
  else pure i
termination_by input.length - i

/-- What digits from an offset on spell behind others. The first place is at fault for all. -/
def digits (input : Bytes) (first : Nat) : Nat → Nat → Nat → Watched Nat
  | 0, _, value => pure value
  | n + 1, i, value => do
    let b ← look input i
    match hexDigit? b with
    | none => fail .invalidUnicodeEscape first
    | some d => digits input first n (i + 1) (value * 16 + d)

/-- The unit that four digits from an offset on spell. -/
def hex4 (input : Bytes) (i : Nat) : Watched Nat :=
  if input.length < i + 4 then fail .invalidUnicodeEscape i else digits input i 4 i 0

/-- The second unit of the pair that the escape at an offset begins. -/
def second (input : Bytes) (i : Nat) : Watched Nat :=
  if input.length < i + 8 then fail .invalidUnicodeEscape i
  else do
    let b ← look input (i + 6)
    if b != Byte.backslash then fail .invalidUnicodeEscape i
    else do
      let c ← look input (i + 7)
      if c != unitLetter then fail .invalidUnicodeEscape i
      else do
        let low ← hex4 input (i + 8)
        if isLow low then pure low else fail .invalidUnicodeEscape i

/-- What the escape at an offset stands for, and its length. -/
def escape (input : Bytes) (i : Nat) : Watched (Bytes × Nat) := do
  let letter ← look input (i + 1)
  if letter == unitLetter then do
    let unit ← hex4 input (i + 2)
    if isHigh unit then do
      let low ← second input i
      pure (Utf8.encode (ofPair unit low), 12)
    else if isLow unit then fail .invalidUnicodeEscape i
    else pure (Utf8.encode unit, 6)
  else
    match letter? letter with
    | none => fail .invalidEscape i
    | some b => pure ([b], 2)

/-- The bytes between two offsets. -/
def slice (input : Bytes) (i j : Nat) : Bytes := (input.drop i).take (j - i)

/-- What a round of the reader comes to: more text, and the offset and the byte that it stops at. -/
structure Round where
  text : Bytes
  next : Nat
  byte : UInt8

/-- Read the escape at an offset and the run behind it. -/
def round (input : Bytes) (i : Nat) : Watched Round := do
  let (text, length) ← escape input i
  pass i length
  let j ← delimiter input (i + length)
  let b ← look input j
  pure ⟨text ++ slice input (i + length) j, j, b⟩

variable {input : Bytes} {i j : Nat} {b : UInt8} {rest : Bytes}

theorem look_eq_ok_iff : (look input i).result = .ok b ↔ input[i]? = some b := by
  unfold look
  cases input[i]? <;> simp

theorem le_of_delimiter (h : (delimiter input i).result = .ok j) : i ≤ j := by
  fun_induction delimiter input i with
  | case1 i hi ih =>
    rw [result_bind] at h
    obtain ⟨b, -, h⟩ := bind_eq_ok_iff.mp h
    split at h
    · cases h
      exact Nat.le_refl _
    · have := ih h
      omega
  | case2 i hi =>
    cases h
    exact Nat.le_refl _

/-- No escape is empty. -/
theorem escape_pos {text : Bytes} {n : Nat} (h : (escape input i).result = .ok (text, n)) :
    0 < n := by
  unfold escape at h
  rw [result_bind] at h
  obtain ⟨letter, -, h⟩ := bind_eq_ok_iff.mp h
  split at h
  · rw [result_bind] at h
    obtain ⟨unit, -, h⟩ := bind_eq_ok_iff.mp h
    split at h
    · rw [result_bind] at h
      obtain ⟨low, -, h⟩ := bind_eq_ok_iff.mp h
      obtain ⟨-, rfl⟩ := Prod.mk.inj (Except.ok.inj h)
      decide
    · split at h
      · cases h
      · cases h
        decide
  · split at h
    · cases h
    · cases h
      decide

/-- A round moves on, and it stops at a byte of the input. -/
theorem round_advances {r : Round} (h : (round input i).result = .ok r) :
    i < r.next ∧ input[r.next]? = some r.byte := by
  unfold round at h
  rw [result_bind] at h
  obtain ⟨⟨text, n⟩, hescape, h⟩ := bind_eq_ok_iff.mp h
  dsimp only at h
  rw [result_bind] at h
  obtain ⟨_, -, h⟩ := bind_eq_ok_iff.mp h
  rw [result_bind] at h
  obtain ⟨j, hrun, h⟩ := bind_eq_ok_iff.mp h
  rw [result_bind] at h
  obtain ⟨b, hlook, h⟩ := bind_eq_ok_iff.mp h
  cases h
  have hpos := escape_pos hescape
  have hle := le_of_delimiter hrun
  exact ⟨by dsimp only; omega, look_eq_ok_iff.mp hlook⟩

/-- Text in front of what a reader goes on to find. -/
def behind {α : Type} (wrap : Bytes → α) (text : Bytes) (x : Watched (Bytes × Nat)) :
    Watched (α × Nat) := do
  let (rest, close) ← x
  pure (wrap (text ++ rest), close)

/-- The text of contents from an escape on, and the offset of the quote that ends them. -/
def unescape (input : Bytes) (i : Nat) : Watched (Bytes × Nat) := do
  let r ← (round input i).attach
  if r.val.byte == Byte.quote then pure (r.val.text, r.val.next)
  else behind id r.val.text (unescape input r.val.next)
termination_by input.length - i
decreasing_by
  obtain ⟨hnext, hbyte⟩ := round_advances r.property
  have hinside := (List.getElem?_eq_some_iff.mp hbyte).1
  omega

/-- The text of the string whose contents begin at an offset, and the offset where they end. -/
def string (input : Bytes) (i : Nat) : Watched (Text × Nat) := do
  let j ← delimiter input i
  let b ← look input j
  if b == Byte.quote then pure (.borrowed (slice input i j), j)
  else behind .owned (slice input i j) (unescape input j)

theorem unescape_eq (input : Bytes) (i : Nat) :
    unescape input i = (do
      let r ← round input i
      if r.byte == Byte.quote then pure (r.text, r.next)
      else behind id r.text (unescape input r.next)) := by
  rw [unescape]
  symm
  exact bind_eq_attach (round input i) _

end Watch

/-! ## §3 What is done at the input -/

/-- The offsets that an act moves past. -/
def Act.passed : Act → List Nat
  | .look _ => []
  | .pass i count => List.range' i count

/-- Acts that look at no byte but those between two offsets, and that move on from the first of the
two, past so many bytes: each of them once, and in order. -/
structure Stays (i close n : Nat) (acts : List Act) : Prop where
  looks : ∀ j, .look j ∈ acts → i ≤ j ∧ j ≤ close
  moves : ∀ j count, .pass j count ∈ acts → 0 < count
  passed_eq : acts.flatMap Act.passed = List.range' i n

namespace Stays

variable {i j k close m n : Nat} {acts acts' : List Act} {α β : Type}

theorem nil : Stays i close 0 [] :=
  ⟨fun _ h => absurd h List.not_mem_nil, fun _ _ h => absurd h List.not_mem_nil, rfl⟩

theorem look (hi : i ≤ j) (hclose : j ≤ close) : Stays i close 0 [.look j] := by
  refine ⟨fun k h => ?_, fun k count h => ?_, rfl⟩
  · cases List.mem_singleton.mp h
    exact ⟨hi, hclose⟩
  · cases List.mem_singleton.mp h

theorem pass (h : 0 < n) : Stays i close n [.pass i n] := by
  refine ⟨fun k hk => ?_, fun k count hk => ?_, List.append_nil _⟩
  · cases List.mem_singleton.mp hk
  · cases List.mem_singleton.mp hk
    exact h

/-- The one moves on to where the other begins. -/
theorem append (h : Stays i close m acts) (h' : Stays (i + m) close n acts') :
    Stays i close (m + n) (acts ++ acts') := by
  refine ⟨fun j hj => ?_, fun j count hj => ?_, ?_⟩
  · rcases List.mem_append.mp hj with hj | hj
    · exact h.looks j hj
    · have := h'.looks j hj
      omega
  · rcases List.mem_append.mp hj with hj | hj
    · exact h.moves j count hj
    · exact h'.moves j count hj
  · rw [List.flatMap_append, h.passed_eq, h'.passed_eq, List.range'_append_1]

/-- Looks are done one after the other, as far as there is something to go on with. -/
theorem bind {x : Watched α} {f : α → Watched β} (hx : Stays i close 0 x.acts)
    (hf : ∀ a, x.result = .ok a → Stays i close 0 (f a).acts) :
    Stays i close 0 (x >>= f).acts := by
  cases hresult : x.result with
  | error stop =>
    rw [Watched.bind_error hresult]
    exact hx
  | ok a =>
    rw [Watched.bind_ok hresult]
    exact hx.append (hf a hresult)

end Stays

/-! ## §4 Runs -/

namespace Watch

open Watched Escape

variable {input rest : Bytes} {i close : Nat} {b : UInt8}

theorem drop_of_drop (front : Bytes) (h : input.drop i = front ++ rest) :
    input.drop (i + front.length) = rest := by
  rw [← List.drop_drop, h, List.drop_left]

/-- A byte that stands a little ahead is seen. -/
theorem look_of_drop {k : Nat} (h : (input.drop i)[k]? = some b) :
    (look input (i + k)).result = .ok b := by
  rwa [look_eq_ok_iff, ← List.getElem?_drop]

theorem look_of_cons (h : input.drop i = b :: rest) : (look input i).result = .ok b := by
  rw [look_eq_ok_iff, ← List.head?_drop, h, List.head?_cons]

theorem slice_of_drop {run : Bytes} (h : input.drop i = run ++ rest) :
    slice input i (i + run.length) = run := by
  rw [slice, h, Nat.add_sub_cancel_left, List.take_left]

/-- The search passes a run byte by byte, and stops at what ends it. -/
theorem delimiter_run {run : Bytes} (hrun : Plain run) (hb : Byte.endsRun b = true)
    (h : input.drop i = run ++ b :: rest) (hclose : i + run.length ≤ close) :
    (delimiter input i).result = .ok (i + run.length) ∧
      Stays i close run.length (delimiter input i).acts := by
  induction run generalizing i with
  | nil =>
    have hlook : (look input i).result = .ok b := look_of_cons h
    have hinside : i < input.length := (List.getElem?_eq_some_iff.mp (look_eq_ok_iff.mp hlook)).1
    rw [delimiter, if_pos hinside, bind_ok hlook, if_pos hb]
    exact ⟨rfl, .look (Nat.le_refl i) hclose⟩
  | cons c run ih =>
    obtain ⟨hc, hrun⟩ := List.forall_mem_cons.mp hrun
    have hlook : (look input i).result = .ok c := look_of_cons h
    have hinside : i < input.length := (List.getElem?_eq_some_iff.mp (look_eq_ok_iff.mp hlook)).1
    rw [List.length_cons] at hclose ⊢
    have hdrop : input.drop (i + 1) = run ++ b :: rest := drop_of_drop [c] h
    obtain ⟨hresult, hstays⟩ := ih hrun hdrop (by omega)
    rw [delimiter, if_pos hinside, bind_ok hlook, hc]
    refine ⟨hresult.trans (congrArg _ (by omega)), ?_⟩
    have hfirst : Stays i close 1 ([.look i] ++ [.pass i 1]) := by
      have hlooks : Stays i close 0 [.look i] := .look (Nat.le_refl i) (by omega)
      exact hlooks.append (.pass Nat.one_pos)
    rw [Nat.add_comm]
    exact hfirst.append hstays

/-! ## §5 Where escapes are looked at -/

theorem digits_result {b₁ b₂ b₃ b₄ : UInt8} (h : input.drop i = b₁ :: b₂ :: b₃ :: b₄ :: rest)
    (first : Nat) :
    (digits input first 4 i 0).result =
      (hex4? b₁ b₂ b₃ b₄).elim (.error (.fault ⟨.invalidUnicodeEscape, first⟩)) .ok := by
  have h₁ : (look input i).result = .ok b₁ := look_of_cons h
  have h₂ : (look input (i + 1)).result = .ok b₂ := look_of_drop (by rw [h]; rfl)
  have h₃ : (look input (i + 2)).result = .ok b₃ := look_of_drop (by rw [h]; rfl)
  have h₄ : (look input (i + 3)).result = .ok b₄ := look_of_drop (by rw [h]; rfl)
  simp only [digits, hex4?, bind_ok h₁]
  cases hexDigit? b₁ with
  | none => rfl
  | some d₁ =>
    simp only [bind_ok h₂]
    cases hexDigit? b₂ with
    | none => rfl
    | some d₂ =>
      simp only [bind_ok h₃]
      cases hexDigit? b₃ with
      | none => rfl
      | some d₃ =>
        simp only [bind_ok h₄]
        cases hexDigit? b₄ with
        | none => rfl
        | some d₄ =>
          simp

/-- Digits are looked at one by one up to a byte that is none, which the closing quote is. -/
theorem digits_stays {bs : Bytes} {j : Nat} (h : input.drop j = bs ++ Byte.quote :: rest)
    (hi : i ≤ j) (hclose : j + bs.length ≤ close) (first n value : Nat) :
    Stays i close 0 (digits input first n j value).acts := by
  induction n generalizing bs j value with
  | zero => exact .nil
  | succ n ih =>
    refine Stays.bind (.look hi (by omega)) fun b hb => ?_
    cases bs with
    | nil =>
      -- The closing quote is the last byte that is looked at.
      have hlook : (look input j).result = .ok Byte.quote := look_of_cons h
      obtain rfl : b = Byte.quote := Except.ok.inj (hb.symm.trans hlook)
      exact .nil
    | cons c bs =>
      rw [List.length_cons] at hclose
      have hdrop : input.drop (j + 1) = bs ++ Byte.quote :: rest := drop_of_drop [c] h
      cases hexDigit? b with
      | none => exact .nil
      | some d => exact ih hdrop (by omega) (by omega) _

theorem hex4_stays {bs : Bytes} {j : Nat} (h : input.drop j = bs ++ Byte.quote :: rest)
    (hi : i ≤ j) (hclose : j + bs.length ≤ close) : Stays i close 0 (hex4 input j).acts := by
  unfold hex4
  split
  · exact .nil
  · exact digits_stays h hi hclose j 4 0

theorem hex4_of_quad {quad : Bytes} {u : Nat} (hquad : Quad quad u)
    (h : input.drop i = quad ++ rest) : (hex4 input i).result = .ok u := by
  obtain ⟨b₁, b₂, b₃, b₄, rfl⟩ := exists_bytes_of_quad hquad
  rw [← hex4?_eq_some_iff] at hquad
  have hlength := congrArg List.length h
  simp only [List.length_drop, List.length_append, List.length_cons, List.length_nil] at hlength
  rw [hex4, if_neg (by omega), digits_result h, hquad]
  rfl

/-- Without four digits the first place is at fault, also where the input ends before the fourth. -/
theorem hex4_of_not {bs : Bytes} (hdigits : ¬ BeginsQuad bs)
    (h : input.drop i = bs ++ Byte.quote :: rest) :
    (hex4 input i).result = .error (.fault ⟨.invalidUnicodeEscape, i⟩) := by
  unfold hex4
  split
  · rfl
  · rename_i hlength
    have hlength' := List.length_drop (l := input) (i := i)
    match hbytes : input.drop i with
    | b₁ :: b₂ :: b₃ :: b₄ :: tail =>
      rw [digits_result hbytes, hex4?_eq_none hdigits (h.symm.trans hbytes)]
      rfl
    | [] | [_] | [_, _] | [_, _, _] =>
      simp only [hbytes, List.length_cons, List.length_nil] at hlength'
      omega

/-- The second unit of a pair is looked for behind the first one, and inside of the body. -/
theorem second_stays {quad bs : Bytes} {u : Nat} (hquad : Quad quad u) (hbody : Body bs)
    (h : input.drop i = Byte.backslash :: unitLetter :: (quad ++ (bs ++ Byte.quote :: rest)))
    (hclose : i + 6 + bs.length ≤ close) : Stays i close 0 (second input i).acts := by
  obtain ⟨b₁, b₂, b₃, b₄, rfl⟩ := exists_bytes_of_quad hquad
  have hdrop : input.drop (i + 6) = bs ++ Byte.quote :: rest :=
    drop_of_drop [Byte.backslash, unitLetter, b₁, b₂, b₃, b₄] h
  unfold second
  split
  · exact .nil
  refine Stays.bind (.look (by omega) (by omega)) fun b hb => ?_
  split
  · exact .nil
  rename_i hbackslash
  -- The byte is no quote, so it belongs to the body, and the one behind it does as well.
  obtain rfl : b = Byte.backslash := by simpa using hbackslash
  rw [look_eq_ok_iff, ← List.head?_drop, hdrop] at hb
  cases hbody with
  | empty => cases hb
  | raw _ hraw _ => exact absurd (Option.some.inj hb) hraw
  | @escaped c bs _ =>
    simp only [List.length_cons] at hclose
    refine Stays.bind (.look (by omega) (by omega)) fun c' hc => ?_
    split
    · exact .nil
    have hdrop' : input.drop (i + 8) = bs ++ Byte.quote :: rest :=
      drop_of_drop [Byte.backslash, c] hdrop
    refine Stays.bind (hex4_stays hdrop' (by omega) (by omega)) fun low _ => ?_
    split
    · exact .nil
    · exact .nil

/-- An escape is looked at up to the closing quote at most, be it good or bad. -/
theorem escape_stays {bs : Bytes} (hbody : Body bs)
    (h : input.drop i = Byte.backslash :: b :: (bs ++ Byte.quote :: rest))
    (hclose : i + 2 + bs.length ≤ close) : Stays i close 0 (escape input i).acts := by
  have hdrop : input.drop (i + 2) = bs ++ Byte.quote :: rest :=
    drop_of_drop [Byte.backslash, b] h
  have hletter : (look input (i + 1)).result = .ok b := look_of_drop (by rw [h]; rfl)
  refine Stays.bind (.look (by omega) (by omega)) fun letter hlook => ?_
  obtain rfl : letter = b := Except.ok.inj (hlook.symm.trans hletter)
  split
  · rename_i hunit
    obtain rfl : letter = unitLetter := eq_of_beq hunit
    refine Stays.bind (hex4_stays hdrop (by omega) (by omega)) fun unit hhex => ?_
    by_cases hdigits : BeginsQuad bs
    · obtain ⟨quad, u, bs, hquad, rfl⟩ := hdigits
      rw [List.append_assoc] at h
      have hlength : quad.length = 4 := by
        obtain ⟨_, _, _, _, rfl⟩ := exists_bytes_of_quad hquad
        rfl
      rw [List.length_append] at hclose
      split
      · exact Stays.bind
          (second_stays hquad (Body.of_plain (plain_of_quad hquad) hbody) h (by omega))
          fun low _ => .nil
      · split
        · exact .nil
        · exact .nil
    -- Nothing is asked behind digits that are not there.
    · cases hhex.symm.trans (hex4_of_not hdigits hdrop)
  · cases letter? letter with
    | none => exact .nil
    | some _ => exact .nil

/-! ## §6 What escapes are read as -/

/-- The escape of a unit goes on behind its digits. -/
theorem escape_eq_hex4 (h : input.drop i = Byte.backslash :: unitLetter :: rest) :
    (escape input i).result = (hex4 input (i + 2)).result >>= fun unit =>
      if isHigh unit then
        (second input i).result >>= fun low => .ok (Utf8.encode (ofPair unit low), 12)
      else if isLow unit then .error (.fault ⟨.invalidUnicodeEscape, i⟩)
      else .ok (Utf8.encode unit, 6) := by
  have hletter : (look input (i + 1)).result = .ok unitLetter := look_of_drop (by rw [h]; rfl)
  rw [escape, result_bind_ok hletter, if_pos (by rfl), result_bind]
  refine bind_congr fun unit => ?_
  split
  · rw [result_bind]
    rfl
  · split
    · rfl
    · rfl

/-- Four digits are read, and then it is asked what kind of unit they spell. -/
theorem escape_of_quad {quad : Bytes} {u : Nat} (hquad : Quad quad u)
    (h : input.drop i = Byte.backslash :: unitLetter :: (quad ++ rest)) :
    input.drop (i + 6) = rest ∧ (escape input i).result =
      if isHigh u then
        (second input i).result >>= fun low => .ok (Utf8.encode (ofPair u low), 12)
      else if isLow u then .error (.fault ⟨.invalidUnicodeEscape, i⟩)
      else .ok (Utf8.encode u, 6) := by
  have hdrop : input.drop (i + 2) = quad ++ rest :=
    drop_of_drop [Byte.backslash, unitLetter] h
  constructor
  · obtain ⟨b₁, b₂, b₃, b₄, rfl⟩ := exists_bytes_of_quad hquad
    exact drop_of_drop [b₁, b₂, b₃, b₄] hdrop
  · rw [escape_eq_hex4 h, hex4_of_quad hquad hdrop]
    rfl

/-- The second unit of a pair stands in an escape of its own. -/
theorem second_eq_hex4 (h : input.drop (i + 6) = Byte.backslash :: unitLetter :: rest) :
    input.drop (i + 8) = rest ∧ (second input i).result = (hex4 input (i + 8)).result >>= fun low =>
      if isLow low then .ok low else .error (.fault ⟨.invalidUnicodeEscape, i⟩) := by
  have hbackslash : (look input (i + 6)).result = .ok Byte.backslash := look_of_cons h
  have hletter : (look input (i + 7)).result = .ok unitLetter :=
    look_of_drop (i := i + 6) (k := 1) (by rw [h]; rfl)
  have hinside := (List.getElem?_eq_some_iff.mp (look_eq_ok_iff.mp hletter)).1
  refine ⟨drop_of_drop [Byte.backslash, unitLetter] h, ?_⟩
  rw [second, if_neg (by omega), result_bind_ok hbackslash, if_neg (by decide),
    result_bind_ok hletter, if_neg (by decide), result_bind]
  refine bind_congr fun low => ?_
  split
  · rfl
  · rfl

/-- Without an escape behind it the first unit is at fault. -/
theorem second_of_not (hescape : ¬ [Byte.backslash, unitLetter] <+: input.drop (i + 6)) :
    (second input i).result = .error (.fault ⟨.invalidUnicodeEscape, i⟩) := by
  unfold second
  split
  · rfl
  rename_i hlength
  have hlength' := List.length_drop (l := input) (i := i + 6)
  match hbytes : input.drop (i + 6) with
  | [] | [_] =>
    simp only [hbytes, List.length_cons, List.length_nil] at hlength'
    omega
  | b :: c :: tail =>
    have hb : (look input (i + 6)).result = .ok b := look_of_cons hbytes
    have hc : (look input (i + 7)).result = .ok c :=
      look_of_drop (i := i + 6) (k := 1) (by rw [hbytes]; rfl)
    rw [result_bind_ok hb]
    split
    · rfl
    rename_i hbackslash
    obtain rfl : b = Byte.backslash := by simpa using hbackslash
    rw [result_bind_ok hc]
    split
    · rfl
    rename_i hletter
    obtain rfl : c = unitLetter := by simpa using hletter
    exact absurd ⟨tail, hbytes.symm⟩ hescape

/-- An escape of the grammar is read as what it stands for. -/
theorem escape_of_one {e text : Bytes} (he : OneEscape e text) (h : input.drop i = e ++ rest) :
    (escape input i).result = .ok (text, e.length) := by
  cases he with
  | @short letter b hescape =>
    have hletter : (look input (i + 1)).result = .ok letter := look_of_drop (by rw [h]; rfl)
    have hunit : (letter == unitLetter) = false := beq_eq_false_iff_ne.mpr (ne_unitLetter hescape)
    rw [← letter?_eq_some_iff] at hescape
    rw [escape, result_bind_ok hletter, hunit, hescape]
    rfl
  | @unit quad u hquad hsurrogate =>
    obtain ⟨hhigh, hlow⟩ := (not_surrogate_iff u).mp hsurrogate
    rw [(escape_of_quad hquad h).2, hhigh, hlow]
    obtain ⟨_, _, _, _, rfl⟩ := exists_bytes_of_quad hquad
    rfl
  | @pair quad quad' high low hquad hhigh hquad' hlow =>
    rw [List.append_assoc] at h
    obtain ⟨hdrop, hescape⟩ := escape_of_quad hquad h
    obtain ⟨hdrop', hsecond⟩ := second_eq_hex4 hdrop
    have hisLow : isLow low = true := (isLow_eq_true_iff low).mpr hlow
    rw [hescape, (isLow_isHigh_of_high hhigh).2, hsecond, hex4_of_quad hquad' hdrop']
    obtain ⟨_, _, _, _, rfl⟩ := exists_bytes_of_quad hquad
    obtain ⟨_, _, _, _, rfl⟩ := exists_bytes_of_quad hquad'
    simp only [bind, Except.bind, hisLow, if_true]
    rfl

/-- A bad escape is refused as the body says. -/
theorem escape_of_bad {bad : Bytes} {cause : Cause} {k : Nat} (hbad : BadEscape bad cause k)
    (hbody : Body bad) (h : input.drop i = bad ++ Byte.quote :: rest) :
    (escape input i).result = .error (.fault ⟨cause, i + k⟩) := by
  cases hbad with
  | @letter b bs hunit hletter =>
    have hlook : (look input (i + 1)).result = .ok b := look_of_drop (by rw [h]; rfl)
    rw [escape, result_bind_ok hlook, if_neg (by simpa using hunit), letter?_eq_none hletter]
    rfl
  | @digits bs hdigits =>
    have hdrop : input.drop (i + 2) = bs ++ Byte.quote :: rest :=
      drop_of_drop [Byte.backslash, unitLetter] h
    rw [escape_eq_hex4 h, hex4_of_not hdigits hdrop]
    rfl
  | @low quad bs u hquad hlow =>
    rw [List.append_assoc] at h
    have hhigh : isHigh u = false := by
      rw [← Bool.not_eq_true, isHigh_eq_true_iff]
      omega
    rw [(escape_of_quad hquad h).2, hhigh, (isLow_eq_true_iff u).mpr hlow]
    rfl
  | @alone quad bs high hquad hhigh hescape =>
    rw [List.append_assoc] at h
    obtain ⟨hdrop, hresult⟩ := escape_of_quad hquad h
    have hnot : ¬ [Byte.backslash, unitLetter] <+: input.drop (i + 6) := by
      rw [hdrop]
      exact (Body.of_unit hquad hbody).not_begins hescape
    rw [hresult, (isLow_isHigh_of_high hhigh).2, second_of_not hnot]
    rfl
  | lowDigits hquad hhigh hdigits =>
    rw [List.append_assoc] at h
    obtain ⟨hdrop, hresult⟩ := escape_of_quad hquad h
    obtain ⟨hdrop', hsecond⟩ := second_eq_hex4 hdrop
    rw [hresult, (isLow_isHigh_of_high hhigh).2, hsecond, hex4_of_not hdigits hdrop']
    rfl
  | @unpaired quad quad' bs high u hquad hhigh hquad' hlow =>
    simp only [List.append_assoc, List.cons_append] at h
    obtain ⟨hdrop, hresult⟩ := escape_of_quad hquad h
    obtain ⟨hdrop', hsecond⟩ := second_eq_hex4 hdrop
    have hother : isLow u = false := by rwa [← Bool.not_eq_true, isLow_eq_true_iff]
    rw [hresult, (isLow_isHigh_of_high hhigh).2, hsecond, hex4_of_quad hquad' hdrop']
    simp only [bind, Except.bind, hother]
    rfl

/-! ## §7 Bodies -/

/-- What reading a body from an offset up to its closing quote comes to. It is read, and then every
byte of it was passed; or it is refused for its first bad escape, and then some of them were. -/
inductive Reads {α : Type} (wrap : Bytes → α) (i close : Nat) (body : Bytes)
    (x : Watched (α × Nat)) : Prop where
  | read {text : Bytes} :
      Contents body text → x.result = .ok (wrap text, close) →
      Stays i close body.length x.acts → Reads wrap i close body x
  | refused {cause : Cause} {k n : Nat} :
      FirstBadEscape body cause k → x.result = .error (.fault ⟨cause, i + k⟩) →
      n ≤ body.length → Stays i close n x.acts → Reads wrap i close body x

/-- Reading goes on behind contents that were read. -/
theorem Reads.behind {α : Type} {wrap : Bytes → α} {good text bs : Bytes} {acts : List Act}
    {x : Watched (Bytes × Nat)} (hgood : Contents good text)
    (hstays : Stays i close good.length acts) (hx : Reads id (i + good.length) close bs x) :
    Reads wrap i close (good ++ bs)
      ⟨(Watch.behind wrap text x).result, acts ++ (Watch.behind wrap text x).acts⟩ := by
  unfold Watch.behind
  cases hx with
  | read hcontents hresult hrest =>
    rw [bind_ok hresult]
    refine .read (hgood.append hcontents) rfl ?_
    rw [List.length_append]
    exact hstays.append (hrest.append .nil)
  | refused hbad hresult hn hrest =>
    rw [bind_error hresult]
    refine .refused (hbad.append hgood) (by rw [Nat.add_assoc]) ?_ (hstays.append hrest)
    rw [List.length_append]
    omega

/-- A round passes an escape and the run behind it. -/
theorem round_run {e text run : Bytes} (he : OneEscape e text) (hrun : Plain run)
    (hb : Byte.endsRun b = true) (h : input.drop i = e ++ run ++ b :: rest)
    (hclose : i + (e ++ run).length ≤ close) (hlooks : Stays i close 0 (escape input i).acts) :
    (round input i).result = .ok ⟨text ++ run, i + (e ++ run).length, b⟩ ∧
      Stays i close (e ++ run).length (round input i).acts := by
  rw [List.append_assoc] at h
  rw [List.length_append, ← Nat.add_assoc] at hclose ⊢
  have hescape := escape_of_one he h
  have hdrop := drop_of_drop e h
  obtain ⟨hstop, hstays⟩ := delimiter_run hrun hb hdrop hclose
  have hlook := look_of_cons (drop_of_drop run hdrop)
  have hpass : (pass i e.length).result = .ok () := rfl
  rw [round, bind_ok hescape]
  dsimp only
  rw [bind_ok hpass, bind_ok hstop, bind_ok hlook, slice_of_drop hdrop]
  refine ⟨rfl, ?_⟩
  have hlast : Stays (i + e.length + run.length) close 0
      (look input (i + e.length + run.length)).acts := .look (Nat.le_refl _) hclose
  rw [← Nat.zero_add (e.length + run.length)]
  exact hlooks.append ((Stays.pass (escape_pos hescape)).append
    (hstays.append (hlast.append .nil)))

/-- From an escape on a body is read up to its closing quote. -/
theorem unescape_reads {body : Bytes} (hbody : Body body)
    (hstart : body.head? = some Byte.backslash) (h : input.drop i = body ++ Byte.quote :: rest)
    (hclose : i + body.length = close) : Reads id i close body (unescape input i) := by
  -- A round reads a whole escape, so the induction is on the length.
  induction hlength : body.length using Nat.strongRecOn generalizing i body with
  | ind n ih =>
    have hnot : ¬ (Byte.backslash == Byte.quote) = true := by decide
    rw [unescape_eq]
    cases hbody with
    | empty => cases hstart
    | raw _ hraw _ => exact absurd (Option.some.inj hstart) hraw
    | @escaped b bs hbs =>
      have hlooks : Stays i close 0 (escape input i).acts := by
        refine escape_stays hbs h ?_
        rw [← hclose, List.length_cons, List.length_cons]
        omega
      rcases escape_or_badEscape b bs with ⟨e, text, more, he, hsplit⟩ | ⟨cause, k, hbad⟩
      · have hmore : Body more := Body.of_contents he.contents (hsplit ▸ Body.escaped hbs)
        rw [hsplit] at h hclose hlength ⊢
        -- The round ends at the closing quote, or where the next one begins.
        rcases hmore.plain_or with hplain | ⟨run, tail, hrun, rfl⟩
        · obtain ⟨hround, hstays⟩ :=
            round_run he hplain (by decide) h (Nat.le_of_eq hclose) hlooks
          rw [bind_ok hround, if_pos (by rfl), hclose]
          exact .read (he.contents.append (contents_of_plain hplain)) rfl (hstays.append .nil)
        · rw [← List.append_assoc] at h hclose hlength ⊢
          rw [List.append_assoc _ _ (Byte.quote :: rest), List.cons_append] at h
          rw [List.length_append] at hclose hlength
          obtain ⟨hround, hstays⟩ := round_run he hrun (by decide) h (by omega) hlooks
          have hgood := he.contents.append (contents_of_plain hrun)
          have hpos := List.length_pos_iff.mpr he.ne_nil
          rw [bind_ok hround, if_neg hnot]
          refine Reads.behind hgood hstays (ih _ ?_ (Body.of_plain hrun hmore) rfl
            (drop_of_drop _ h) ?_ rfl)
          · rw [List.length_append] at hlength
            omega
          · rw [Nat.add_assoc]
            exact hclose
      · have hescape := escape_of_bad hbad (.escaped hbs) h
        have hround : round input i = ⟨.error (.fault ⟨cause, i + k⟩), (escape input i).acts⟩ := by
          rw [round, bind_error hescape]
        rw [hround]
        exact .refused hbad.first rfl (Nat.zero_le _) hlooks

/-- Plain contents are passed by the first search. -/
theorem string_plain {body : Bytes} (hplain : Plain body)
    (h : input.drop i = body ++ Byte.quote :: rest) :
    Reads .borrowed i (i + body.length) body (string input i) := by
  obtain ⟨hstop, hstays⟩ := delimiter_run hplain (by decide) h (Nat.le_refl _)
  have hlook := look_of_cons (drop_of_drop body h)
  rw [string, bind_ok hstop, bind_ok hlook, if_pos (by rfl), slice_of_drop h]
  refine .read (contents_of_plain hplain) rfl ?_
  have hlast : Stays (i + body.length) (i + body.length) 0 (look input (i + body.length)).acts :=
    .look (Nat.le_refl _) (Nat.le_refl _)
  exact hstays.append (hlast.append .nil)

/-- Other contents are read from the first escape on. -/
theorem string_escaped {body : Bytes} (hbody : Body body) (hplain : ¬ Plain body)
    (h : input.drop i = body ++ Byte.quote :: rest) :
    Reads .owned i (i + body.length) body (string input i) := by
  obtain hcontra | ⟨run, tail, hrun, rfl⟩ := hbody.plain_or
  · exact absurd hcontra hplain
  rw [List.append_assoc, List.cons_append] at h
  have hlength : i + (run ++ Byte.backslash :: tail).length =
      i + run.length + (Byte.backslash :: tail).length := by
    rw [List.length_append, Nat.add_assoc]
  rw [hlength]
  have hle : i + run.length ≤ i + run.length + (Byte.backslash :: tail).length :=
    Nat.le_add_right ..
  obtain ⟨hstop, hstays⟩ := delimiter_run hrun (by decide) h hle
  have hdrop := drop_of_drop run h
  have hlook := look_of_cons hdrop
  have hnot : ¬ (Byte.backslash == Byte.quote) = true := by decide
  rw [string, bind_ok hstop, bind_ok hlook, if_neg hnot, slice_of_drop h]
  dsimp only
  rw [← List.append_assoc]
  have hlast : Stays (i + run.length) (i + run.length + (Byte.backslash :: tail).length) 0
      (look input (i + run.length)).acts := .look (Nat.le_refl _) hle
  exact Reads.behind (contents_of_plain hrun) (hstays.append hlast)
    (unescape_reads (Body.of_plain hrun hbody) rfl hdrop rfl)

/-- A watched reader that agrees with an unwatched one about contents of some size. -/
structure Agrees (i close size : Nat) (read : Except Fault Text) (x : Watched (Text × Nat)) :
    Prop where
  /-- What is read is the same text, and it ends at the closing quote. What is refused is refused
  for the same fault, and never for a byte that is not there. -/
  result_eq : x.result = (read.map fun text => (text, close)).mapError .fault
  /-- No look is behind the closing quote, and the contents are passed without a gap: all of them,
  if they are read. -/
  stays : ∃ n ≤ size, Stays i close n x.acts ∧ ∀ text, read = .ok text → n = size

theorem Reads.agrees {wrap : Bytes → Text} {body : Bytes} {read : Except Fault Text}
    {x : Watched (Text × Nat)} (hx : Reads wrap i close body x)
    (hread : ∀ text, Contents body text → read = .ok (wrap text))
    (hrefused : ∀ cause k, FirstBadEscape body cause k → read = .error ⟨cause, i + k⟩) :
    Agrees i close body.length read x := by
  cases hx with
  | read hcontents hresult hstays =>
    rw [hread _ hcontents]
    exact ⟨hresult, body.length, Nat.le_refl _, hstays, fun _ _ => rfl⟩
  | @refused cause k n hbad hresult hn hstays =>
    rw [hrefused cause k hbad]
    exact ⟨hresult, n, hn, hstays, fun _ h => by cases h⟩

/-- A body is read as it is without watching, up to its closing quote. -/
theorem string_agrees {body : Bytes} (hbody : Body body)
    (h : input.drop i = body ++ Byte.quote :: rest) :
    Agrees i (i + body.length) body.length (Text.read i (body ++ Byte.quote :: rest))
      (string input i) := by
  have hrefused : ∀ cause k, FirstBadEscape body cause k →
      Text.read i (body ++ Byte.quote :: rest) = .error ⟨cause, i + k⟩ :=
    fun _ _ hbad => Text.read_firstBadEscape hbad hbody i rest
  rcases Text.read_body hbody i rest with ⟨hplain, hread⟩ | ⟨hplain, hread⟩
  · refine (string_plain hplain h).agrees (fun text hcontents => ?_) hrefused
    rw [hread, contents_unique hcontents (contents_of_plain hplain)]
  · refine (string_escaped hbody hplain h).agrees (fun text hcontents => ?_) hrefused
    rw [hread, unescape_contents hcontents]
    rfl

/-- The first search stops inside of a body, or at its closing quote. -/
theorem delimiter_body {body : Bytes} (hbody : Body body)
    (h : input.drop i = body ++ Byte.quote :: rest) :
    ∃ j b, (delimiter input i).result = .ok j ∧ j ≤ i + body.length ∧ input[j]? = some b ∧
      Byte.endsRun b = true := by
  obtain ⟨run, b, tail, hrun, hb, hlength, hsplit⟩ := hbody.exists_run rest
  rw [hsplit] at h
  have hlook := look_of_cons (drop_of_drop run h)
  exact ⟨i + run.length, b, (delimiter_run hrun hb h (Nat.le_refl _)).1, by omega,
    look_eq_ok_iff.mp hlook, hb⟩

end Watch

/-- What is left behind contents that were unescaped begins with their closing quote. -/
theorem Escape.rest_of_unescape {body text rest rest' : Bytes} {offset : Nat} (hbody : Body body)
    (h : unescape offset (body ++ Byte.quote :: rest) = .ok (text, rest')) :
    rest' = Byte.quote :: rest := by
  rcases hbody.contents_or with ⟨text', hcontents⟩ | ⟨cause, k, hbad⟩
  · rw [unescape_contents hcontents] at h
    cases h
    rfl
  · rw [unescape_firstBadEscape hbad hbody] at h
    cases h

/-! ## §8 String tokens -/

namespace Token

variable {input : Bytes} {t : Token} {body : Bytes}

/-- A string token of an input that its readers do not leave. -/
structure StaysInside (input : Bytes) (t : Token) (body : Bytes) : Prop where
  text_eq : t.text = quoted body
  delimited : Body body
  /-- The token ends with a quote, which is a byte of the input. -/
  closing : input[t.offset + 1 + body.length]? = some Byte.quote
  /-- The first search stops at a quote or a backslash, and not behind the closing quote. -/
  search : ∃ j b, (Watch.delimiter input (t.offset + 1)).result = .ok j ∧
    j ≤ t.offset + 1 + body.length ∧ input[j]? = some b ∧ Byte.endsRun b = true
  /-- The reader of the token ends at this quote, unless there is a fault before it. -/
  agrees : Watch.Agrees (t.offset + 1) (t.offset + 1 + body.length) body.length t.string
    (Watch.string input (t.offset + 1))
  /-- Every round over an escape moves on, and stops at a byte of the input. -/
  rounds : ∀ i r, (Watch.round input i).result = .ok r → i < r.next ∧ r.next < input.length
  /-- What unescaping leaves of the input begins with the closing quote. -/
  rest_eq : ∀ text rest,
    Escape.unescape (t.offset + 1) (t.tail.drop 1) = .ok (text, rest) → rest = Byte.quote :: t.rest

/-- A body between quotes is read inside of its token. -/
theorem staysInside (hbody : Body body) (htext : t.text = quoted body)
    (htoken : input.drop t.offset = t.tail) : t.StaysInside input body := by
  have htail : t.tail = Byte.quote :: (body ++ Byte.quote :: t.rest) := by
    rw [tail, htext]
    simp [quoted]
  rw [htail] at htoken
  have hdrop : input.drop (t.offset + 1) = body ++ Byte.quote :: t.rest :=
    Watch.drop_of_drop [Byte.quote] htoken
  have hclosing := Watch.look_of_cons (Watch.drop_of_drop body hdrop)
  have hagrees := Watch.string_agrees hbody hdrop
  rw [← string_of_quoted htext] at hagrees
  refine ⟨htext, hbody, Watch.look_eq_ok_iff.mp hclosing, Watch.delimiter_body hbody hdrop, hagrees,
    fun i r hround => ?_, fun text rest h => ?_⟩
  · obtain ⟨hnext, hbyte⟩ := Watch.round_advances hround
    exact ⟨hnext, (List.getElem?_eq_some_iff.mp hbyte).1⟩
  · rw [htail] at h
    exact Escape.rest_of_unescape hbody h

/-- Every string token of an input is read inside of it: the readers find the closing quote that the
pass over the input found, or refuse an escape in front of it; they look at no byte behind it, and
pass the contents without a gap. -/
theorem staysInside_of_scan {ts : List Token} (hscan : scan input = .ok ts) (ht : t ∈ ts)
    (hquote : t.head = Byte.quote) : ∃ body, t.StaysInside input body := by
  have hsplits := ((scan_eq_ok_iff input ts).mp hscan).1
  obtain ⟨body, htext, hbody⟩ := text_of_quote (hsplits.pieces t ht) hquote
  exact ⟨body, staysInside hbody htext (hsplits.drop_offset t ht)⟩

/-- A pair of units, and digits that the closing quote cuts short at the end of the input. -/
def cutShortInput : Bytes := Bytes.ofAscii "[\"\\uD83d\\uDe00\",\"\\u12\""

/-- The one string is read up to its quote, and the other one is refused in front of its own. -/
theorem staysInside_of_scan_cutShort :
    ∃ ts t t', scan cutShortInput = .ok ts ∧
      (t ∈ ts ∧ t.head = Byte.quote ∧ t.string = .ok (.owned [0xF0, 0x9F, 0x98, 0x80]) ∧
        ∃ body, t.StaysInside cutShortInput body) ∧
      t' ∈ ts ∧ t'.head = Byte.quote ∧ t'.string = .error ⟨.invalidUnicodeEscape, 19⟩ ∧
        ∃ body, t'.StaysInside cutShortInput body := by
  let t : Token := ⟨1, quoted (Bytes.ofAscii "\\uD83d\\uDe00"), cutShortInput.drop 15⟩
  let t' : Token := ⟨16, quoted (Bytes.ofAscii "\\u12"), []⟩
  have hscan : scan cutShortInput = .ok [⟨0, Bytes.ofAscii "[", cutShortInput.drop 1⟩, t,
    ⟨15, Bytes.ofAscii ",", cutShortInput.drop 16⟩, t'] := by decide +kernel
  have hread : t.string = .ok (.owned [0xF0, 0x9F, 0x98, 0x80]) := by decide +kernel
  have hrefused : t'.string = .error ⟨.invalidUnicodeEscape, 19⟩ := by decide +kernel
  exact ⟨_, t, t', hscan,
    ⟨by simp, rfl, hread, staysInside_of_scan hscan (by simp) rfl⟩,
    by simp, rfl, hrefused, staysInside_of_scan hscan (by simp) rfl⟩

end Token

end JsonTree
