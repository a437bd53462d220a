import JsonTree.Proofs.Live.Decode

/-!
# What the walk asks of the cursor

The walk moves the cursor without looking at commas, colons and closing brackets, and asks for
counts and texts without looking at what it asks them of. Here the same walk also writes down every
question with the cursor at that moment. Over the tokens of a tree no question goes astray: each is
about a token that is there and of the kind it is meant for, each token is passed once, and a value
takes up its own tokens and no others.

## Main definitions

- `Event`, `Logged`: questions to the cursor, and results with the questions that led to them.
- `Decode.walkValue`: the walk that writes down its questions.
- `Event.Fits`: a question that is asked in its place.
- `Tracks`: a logged result that passes over given tokens.

## Main statements

- `Decode.walkValue_result`: writing down changes nothing.
- `Node.tracks`: the walk over a tree asks every question in its place.
- `decode_walk_inStep`: the walk over an input stays in step with its tokens.
-/

namespace JsonTree

open Outline (Item)
open Decode (State Request parseString)

/-! ## §1 Questions -/

/-- What the walk does at the cursor, with the cursor before it. -/
inductive Event where
  /-- It passes a token and asks for its first byte. -/
  | next (c : Cursor)
  /-- It passes a token unread. -/
  | skip (c : Cursor)
  /-- It asks for the count of the token passed last. -/
  | count (c : Cursor)
  /-- It asks for the text of the token passed last. -/
  | string (c : Cursor)
  /-- It asks for the number at the token passed last. -/
  | number (c : Cursor)
  /-- It finds a fault at the token passed last. -/
  | fault (c : Cursor)
  /-- It has read a value, from the one cursor to the other. -/
  | value (before after : Cursor)

/-- A result, and what was done for it, also where that failed. -/
structure Logged (α : Type) where
  result : Except Fault α
  log : List Event

namespace Logged

variable {α β : Type}

instance : Monad Logged where
  pure a := ⟨.ok a, []⟩
  bind x f :=
    match x.result with
    | .error fault => ⟨.error fault, x.log⟩
    | .ok a => ⟨(f a).result, x.log ++ (f a).log⟩

/-- Do one thing. -/
def ask (event : Event) (result : Except Fault α) : Logged α := ⟨result, [event]⟩

def next (s : State) : Logged (UInt8 × State) := ask (.next s.cursor) (.ok s.next)

def skip (s : State) : Logged State := ask (.skip s.cursor) (.ok s.skip)

def count (c : Cursor) : Logged Nat := ask (.count c) (.ok c.count)

def string (r : Request) (c : Cursor) : Logged (Held Slice) := ask (.string c) (parseString r c)

def number (c : Cursor) (root negative : Bool) : Logged Number :=
  ask (.number c) (c.number root negative)

def fail (c : Cursor) (cause : Cause) : Logged α := ask (.fault c) (.error (c.fault cause))

/-- One more container is open, or the token passed last opens one too many. -/
def push (limit : Nat) (s : State) : Logged State :=
  match s.pushDepth limit with
  | .ok s => pure s
  | .error _ => fail s.cursor .depthExceeded

end Logged

namespace Decode

open Logged

/-- A part of the walk, written down. -/
abbrev Walker (α : Type) := State → Logged (α × State)

def walkElements (walkElement : Walker Live) : Nat → Walker (List Live)
  | 0, s => pure ([], s)
  | n + 1, s => do
    let (v, s) ← walkElement s
    let s ← skip s
    let (elements, s) ← walkElements walkElement n s
    pure (v :: elements, s)

def walkMembers (r : Request) (walkMember : Walker Live) :
    Nat → Object Slice Live → Walker (Object Slice Live)
  | 0, o, s => pure (o, s)
  | n + 1, o, s => do
    let s ← skip s
    let key ← string r s.cursor
    let s ← skip s
    let (v, s) ← walkMember s
    let s ← skip s
    walkMembers r walkMember n (o.append key v) s

def walkAtom (r : Request) (root : Bool) (b : UInt8) (c : Cursor) : Logged Live :=
  if b == Byte.minus then .ofNumber <$> number c root true
  else if Byte.isDigit b then .ofNumber <$> number c root false
  else if b == Byte.quote then .string <$> string r c
  else if b == 0x6E then pure .null
  else if b == 0x74 then pure (.bool true)
  else if b == 0x66 then pure (.bool false)
  else fail c .unexpectedCharacter

/-- A container: it is empty, or its elements or members are read by its count. -/
def walkContainer (limit : Nat) (empty : Live) (walkInside : Nat → Walker Live) : Walker Live :=
  fun s => do
    let s ← push limit s
    let n ← count s.cursor
    if n = 0 then do
      let s ← skip s
      pure (empty, s.popDepth)
    else do
      let (v, s) ← walkInside n s
      pure (v, s.popDepth)

/-- A value that is read from a cursor on. -/
def asValue (c : Cursor) (x : Logged (Live × State)) : Logged (Live × State) :=
  x >>= fun p => ask (.value c p.2.cursor) (.ok p)

/-- The walk over a value, written down. -/
def walkValue (r : Request) : Nat → Bool → Walker Live
  | 0, _, s => fail s.skip.cursor .unexpectedCharacter
  | ahead + 1, root, s => asValue s.cursor do
    let (b, s) ← next s
    if b == Byte.openArray then
      walkContainer r.limit (.array [])
        (fun n s => do
          let (elements, s) ← walkElements (walkValue r ahead false) n s
          pure (.array elements, s)) s
    else if b == Byte.openObject then
      walkContainer r.limit (.ofObject .empty)
        (fun n s => do
          let (o, s) ← walkMembers r (walkValue r ahead false) n (Object.empty.reserve n) s
          pure (.ofObject o.finalize, s)) s
    else do
      let v ← walkAtom r root b s.cursor
      pure (v, s)

end Decode

/-! ## §2 Writing down changes nothing -/

section

open Logged

variable {α β : Type}

@[simp]
theorem Logged.result_pure (a : α) : (pure a : Logged α).result = .ok a := rfl

@[simp]
theorem Logged.result_bind (x : Logged α) (f : α → Logged β) :
    (x >>= f).result = x.result >>= fun a => (f a).result := by
  obtain ⟨result, log⟩ := x
  cases result <;> rfl

@[simp]
theorem Logged.result_map (x : Logged α) (f : α → β) : (f <$> x).result = f <$> x.result := by
  obtain ⟨result, log⟩ := x
  cases result <;> rfl

@[simp]
theorem Logged.result_push (limit : Nat) (s : State) :
    (push limit s).result = s.pushDepth limit := by
  unfold push State.pushDepth
  by_cases hlimit : limit < s.depth + 1
  · rw [if_pos hlimit]
    rfl
  · rw [if_neg hlimit]
    rfl

namespace Decode

variable {r : Request} {walk : Walker Live} {parse : Parser Live}

theorem walkElements_result (h : ∀ s, (walk s).result = parse s) (n : Nat) (s : State) :
    (walkElements walk n s).result = parseElements parse n s := by
  induction n generalizing s with
  | zero => rfl
  | succ n ih =>
    simp only [walkElements, parseElements, result_bind, result_pure, h]
    refine bind_congr fun p => ?_
    simp only [skip, ask, ← ih]
    rfl

theorem walkMembers_result (h : ∀ s, (walk s).result = parse s) (n : Nat) (o : Object Slice Live)
    (s : State) : (walkMembers r walk n o s).result = parseMembers r parse n o s := by
  induction n generalizing o s with
  | zero => rfl
  | succ n ih =>
    simp only [walkMembers, parseMembers, result_bind, h]
    change (parseString r s.skip.cursor >>= _) = _
    refine bind_congr fun key => ?_
    change (parse s.skip.skip >>= _) = _
    refine bind_congr fun p => ?_
    simp only [skip, ask, ← ih]
    rfl

theorem walkAtom_result (root : Bool) (b : UInt8) (c : Cursor) :
    (walkAtom r root b c).result = parseAtom r root b c := by
  simp only [walkAtom, parseAtom, apply_ite Logged.result, result_map, result_pure]
  rfl

theorem walkContainer_result (limit : Nat) (empty : Live) (walkInside : Nat → Walker Live)
    (s : State) :
    (walkContainer limit empty walkInside s).result = (do
      let s ← s.pushDepth limit
      if s.cursor.count = 0 then .ok (empty, s.skip.popDepth)
      else
        let (v, s) ← (walkInside s.cursor.count s).result
        .ok (v, s.popDepth)) := by
  rw [walkContainer, result_bind, result_push]
  refine bind_congr fun s => ?_
  change (if s.cursor.count = 0 then _ else _ : Logged (Live × State)).result = _
  simp only [apply_ite Logged.result, result_bind]
  rfl

theorem asValue_result (c : Cursor) (x : Logged (Live × State)) :
    (asValue c x).result = x.result := by
  obtain ⟨result, log⟩ := x
  cases result <;> rfl

/-- Writing down the questions of the walk changes nothing. -/
theorem walkValue_result (r : Request) (ahead : Nat) (root : Bool) (s : State) :
    (walkValue r ahead root s).result = parseValue r ahead root s := by
  induction ahead generalizing root s with
  | zero => rfl
  | succ ahead ih =>
    unfold walkValue parseValue
    simp only [asValue_result, result_bind, apply_ite Logged.result, walkAtom_result, result_pure,
      walkContainer_result, walkElements_result (ih false), walkMembers_result (ih false),
      bind_assoc]
    rfl

end Decode

end

/-! ## §3 Questions in their place -/

/-- How many elements or members a container holds; none for an atom. -/
def Node.size? : Node → Option Nat
  | .atom _ => none
  | .emptyArray _ _ => some 0
  | .array _ elements => some elements.count
  | .emptyObject _ _ => some 0
  | .object _ members => some members.count

/-- The cursor stands between the tokens of a sequence, or at one of its ends. -/
def Cursor.StandsIn (c : Cursor) (items : List Item) : Prop :=
  ∃ passed, items = passed ++ c.rest ∧ c.last = passed.getLast?

namespace Cursor

variable {c : Cursor} {items left : List Item} {item : Item}

/-- The cursor moves on by one token. -/
theorem skip_eq (hrest : c.rest = item :: left) : c.skip = ⟨c.size, some item, left⟩ := by
  rw [skip, hrest]
  rfl

theorem StandsIn.skip (hc : c.StandsIn items) (hrest : c.rest = item :: left) :
    c.skip.StandsIn items := by
  obtain ⟨before, hitems, -⟩ := hc
  rw [skip_eq hrest]
  exact ⟨before ++ [item], by simp [hitems, hrest], by simp⟩

/-- No more tokens are ahead than were ahead before. -/
theorem length_rest_le {c' : Cursor} {n : Nat} (here : List Item) (hrest : c.rest = here ++ left)
    (hleft : c'.rest = left) (h : c.rest.length ≤ n) : c'.rest.length ≤ n := by
  rw [hrest, List.length_append] at h
  rw [hleft]
  exact Nat.le_trans (Nat.le_add_left _ _) h

end Cursor

/-- What is done at the cursor is done in its place among the tokens. -/
inductive Event.Fits (items : List Item) : Event → Prop where
  /-- A value begins at the token. -/
  | next {c : Cursor} {w : Node} {left : List Item} :
      c.StandsIn items → w.WellFormed → c.rest = w.items ++ left → Event.Fits items (.next c)
  /-- The token is a key, a mark or the end of a container. -/
  | skip {c : Cursor} {item : Item} {left : List Item} :
      c.StandsIn items → c.rest = item :: left →
      item.token.head ∈
        [Byte.quote, Byte.colon, Byte.comma, Byte.closeArray, Byte.closeObject] →
      Event.Fits items (.skip c)
  /-- The token opens a container, which holds as many elements or members as it is counted for. -/
  | count {c : Cursor} {item : Item} {w : Node} {left : List Item} :
      c.StandsIn items → c.last = some item →
      item.token.head = Byte.openArray ∨ item.token.head = Byte.openObject →
      w.WellFormed → item :: c.rest = w.items ++ left → w.size? = some item.count →
      Event.Fits items (.count c)
  | string {c : Cursor} {item : Item} :
      c.StandsIn items → c.last = some item → item.token.head = Byte.quote →
      Event.Fits items (.string c)
  | number {c : Cursor} {item : Item} :
      c.StandsIn items → c.last = some item →
      item.token.head = Byte.minus ∨ Byte.isDigit item.token.head = true →
      Event.Fits items (.number c)
  | fault {c : Cursor} {item : Item} :
      c.StandsIn items → c.last = some item → Event.Fits items (.fault c)
  /-- The value took up its own tokens. -/
  | value {before after : Cursor} {w : Node} :
      before.StandsIn items → after.StandsIn items → w.WellFormed →
      before.rest = w.items ++ after.rest → Event.Fits items (.value before after)

/-- The token that is passed, if one is. -/
def Event.passed : Event → List Item
  | .next c | .skip c => c.rest.head?.toList
  | _ => []

/-- The tokens that are passed, in their order. -/
def passed (log : List Event) : List Item := log.flatMap Event.passed

/-- Something done that passes over given tokens, or over some of them where it fails. What it gives
tells the cursor behind it. -/
structure Tracks {α : Type} (items : List Item) (out : α → Cursor) (here left : List Item)
    (x : Logged α) : Prop where
  fits : ∀ e ∈ x.log, e.Fits items
  passed_prefix : passed x.log <+: here
  done : ∀ a, x.result = .ok a →
    passed x.log = here ∧ (out a).StandsIn items ∧ (out a).rest = left

namespace Tracks

variable {α β : Type} {items here here' left : List Item} {out : α → Cursor} {out' : β → Cursor}
  {x : Logged α}

/-- One thing after the other. -/
theorem bind {f : α → Logged β} (h : Tracks items out here (here' ++ left) x)
    (hf : ∀ a, x.result = .ok a → (out a).StandsIn items → (out a).rest = here' ++ left →
      Tracks items out' here' left (f a)) :
    Tracks items out' (here ++ here') left (x >>= f) := by
  obtain ⟨result, log⟩ := x
  cases result with
  | error fault =>
    -- Nothing more is done, so what is passed begins the tokens of both.
    exact ⟨h.fits, h.passed_prefix.trans (List.prefix_append _ _), fun b hb => by cases hb⟩
  | ok a =>
    obtain ⟨hpassed, hstands, hrest⟩ := h.done a rfl
    have ha := hf a rfl hstands hrest
    have hlog : passed (log ++ (f a).log) = here ++ passed (f a).log := by
      rw [passed, List.flatMap_append]
      exact congrArg (· ++ _) hpassed
    refine ⟨fun e he => ?_, ?_, fun b hb => ?_⟩
    · exact (List.mem_append.mp he).elim (h.fits e) (ha.fits e)
    · change passed (log ++ (f a).log) <+: here ++ here'
      rw [hlog]
      exact (List.prefix_append_right_inj here).mpr ha.passed_prefix
    · obtain ⟨hpassed', hstands', hrest'⟩ := ha.done b hb
      refine ⟨?_, hstands', hrest'⟩
      change passed (log ++ (f a).log) = here ++ here'
      rw [hlog, hpassed']

/-- Nothing is done. -/
theorem pure {a : α} (hstands : (out a).StandsIn items) (hrest : (out a).rest = left) :
    Tracks items out [] left (Pure.pure a) :=
  ⟨fun e he => absurd he List.not_mem_nil, List.nil_prefix, fun a' ha => by
    cases ha
    exact ⟨rfl, hstands, hrest⟩⟩

/-- A question about the token passed last. -/
theorem ask {event : Event} {result : Except Fault α} (hfits : event.Fits items)
    (hpassed : event.passed = [])
    (hout : ∀ a, result = .ok a → (out a).StandsIn items ∧ (out a).rest = left) :
    Tracks items out [] left (Logged.ask event result) := by
  have hnone : passed [event] = [] := by rw [passed, List.flatMap_singleton, hpassed]
  refine ⟨List.forall_mem_singleton.mpr hfits, ?_, fun a ha => ⟨hnone, hout a ha⟩⟩
  exact hnone ▸ List.nil_prefix

variable {c : Cursor} {item : Item}

/-- The token in front of the cursor is passed. -/
theorem pass {event : Event} {a : α} (hc : c.StandsIn items) (hrest : c.rest = item :: left)
    (hfits : event.Fits items) (hpassed : event.passed = c.rest.head?.toList)
    (hout : out a = c.skip) :
    Tracks items out [item] left (Logged.ask event (.ok a)) := by
  have hone : passed [event] = [item] := by
    rw [passed, List.flatMap_singleton, hpassed, hrest]
    rfl
  refine ⟨List.forall_mem_singleton.mpr hfits, hone ▸ List.prefix_refl _, fun b hb => ?_⟩
  cases hb
  rw [hout]
  exact ⟨hone, hc.skip hrest, by rw [Cursor.skip_eq hrest]⟩

theorem skip {s : State} (hs : s.cursor.StandsIn items) (hrest : s.cursor.rest = item :: left)
    (hhead : item.token.head ∈
      [Byte.quote, Byte.colon, Byte.comma, Byte.closeArray, Byte.closeObject]) :
    Tracks items State.cursor [item] left (Logged.skip s) :=
  pass hs hrest (.skip hs hrest hhead) rfl rfl

/-- Where a fault is found, the rest is not passed. -/
theorem fail {cause : Cause} (hc : c.StandsIn items) (hlast : c.last = some item) :
    Tracks items out here left (Logged.fail c cause) :=
  ⟨List.forall_mem_singleton.mpr (.fault hc hlast), List.nil_prefix, fun a ha => by cases ha⟩

/-- What is made of a result does not matter. -/
theorem map (h : Tracks items out here left x) (f : α → β) (hout : ∀ a, out' (f a) = out a) :
    Tracks items out' here left (f <$> x) := by
  obtain ⟨result, log⟩ := x
  cases result with
  | error fault => exact ⟨h.fits, h.passed_prefix, fun b hb => by cases hb⟩
  | ok a =>
    have hlog : (f <$> (⟨.ok a, log⟩ : Logged α)).log = log := List.append_nil log
    refine ⟨?_, ?_, ?_⟩
    · rw [hlog]
      exact h.fits
    · rw [hlog]
      exact h.passed_prefix
    · rw [hlog]
      intro b hb
      cases hb
      rw [hout]
      exact h.done a rfl

end Tracks

section

variable (r : Request) {items : List Item} {s : State}

open Decode

/-- An atom is asked for its text or its number, or it is at fault. -/
theorem tracks_walkAtom {c : Cursor} {item : Item} (hc : c.StandsIn items)
    (hlast : c.last = some item) (root : Bool) :
    Tracks items (fun _ => c) [] c.rest (walkAtom r root item.token.head c) := by
  have hstay : ∀ {α : Type} {event : Event} {result : Except Fault α}, event.Fits items →
      event.passed = [] → Tracks items (fun _ => c) [] c.rest (Logged.ask event result) :=
    fun hfits hpassed => .ask hfits hpassed fun _ _ => ⟨hc, rfl⟩
  unfold walkAtom
  by_cases hminus : item.token.head = Byte.minus
  · rw [if_pos (beq_iff_eq.mpr hminus)]
    exact (hstay (.number hc hlast (.inl hminus)) rfl).map _ fun _ => rfl
  rw [if_neg (by simpa using hminus)]
  by_cases hdigit : Byte.isDigit item.token.head = true
  · rw [if_pos hdigit]
    exact (hstay (.number hc hlast (.inr hdigit)) rfl).map _ fun _ => rfl
  rw [if_neg hdigit]
  by_cases hquote : item.token.head = Byte.quote
  · rw [if_pos (beq_iff_eq.mpr hquote)]
    exact (hstay (.string hc hlast hquote) rfl).map _ fun _ => rfl
  rw [if_neg (by simpa using hquote)]
  repeat' split
  · exact .pure hc rfl
  · exact .pure hc rfl
  · exact .pure hc rfl
  · exact hstay (.fault hc hlast) rfl

/-- A value that is read from its own tokens. -/
theorem Tracks.asValue {c : Cursor} {w : Node} {left : List Item} {x : Logged (Live × State)}
    (hc : c.StandsIn items) (hw : w.WellFormed) (hrest : c.rest = w.items ++ left)
    (h : Tracks items (fun p => p.2.cursor) w.items left x) :
    Tracks items (fun p => p.2.cursor) w.items left (asValue c x) := by
  have hbind : Tracks items (fun p => p.2.cursor) (w.items ++ []) left (Decode.asValue c x) := by
    refine h.bind fun p _ hstands hleft => ?_
    refine .ask (.value hc hstands hw (by rw [hrest, hleft]; rfl)) rfl fun q hq => ?_
    cases hq
    exact ⟨hstands, hleft⟩
  rwa [List.append_nil] at hbind

/-- The token that a value begins with is passed and looked at. One token less is ahead then. -/
theorem Tracks.begin {w : Node} {item : Item} {here left : List Item} {ahead : Nat}
    {f : UInt8 × State → Logged (Live × State)} (hs : s.cursor.StandsIn items) (hw : w.WellFormed)
    (hrest : s.cursor.rest = w.items ++ left) (hahead : s.cursor.rest.length ≤ ahead + 1)
    (hitems : w.items = item :: here)
    (hf : ∀ s' : State, s'.cursor.StandsIn items → s'.cursor.last = some item →
      s'.cursor.rest = here ++ left → s'.cursor.rest.length ≤ ahead →
      Tracks items (fun p => p.2.cursor) here left (f (item.token.head, s'))) :
    Tracks items (fun p => p.2.cursor) w.items left (Logged.next s >>= f) := by
  have hfirst : s.cursor.rest = item :: (here ++ left) := by rw [hrest, hitems, List.cons_append]
  have hnext : Tracks items (fun p => p.2.cursor) [item] (here ++ left) (Logged.next s) :=
    .pass hs hfirst (.next hs hw hrest) rfl rfl
  rw [hitems]
  refine hnext.bind fun p hp hstands hleft => ?_
  obtain rfl : p = (item.token.head, s.skip) := by
    cases hp
    rw [State.next, Cursor.next, Cursor.byte, State.skip, Cursor.skip_eq hfirst]
    rfl
  have hlast : s.skip.cursor.last = some item := by rw [State.skip_cursor, Cursor.skip_eq hfirst]
  refine hf s.skip hstands hlast hleft ?_
  rw [hfirst, List.length_cons] at hahead
  rw [hleft]
  exact Nat.le_of_succ_le_succ hahead

/-- A container is asked for its count. Where the count is that of an empty one, a closing bracket
is passed; otherwise the elements or members are read, as many as are counted. -/
theorem tracks_walkContainer {w : Node} {item : Item} {here left : List Item} {limit : Nat}
    (hs : s.cursor.StandsIn items) (hlast : s.cursor.last = some item)
    (hrest : s.cursor.rest = here ++ left)
    (hhead : item.token.head = Byte.openArray ∨ item.token.head = Byte.openObject)
    (hw : w.WellFormed) (hitems : w.items = item :: here) (hsize : w.size? = some item.count)
    {empty : Live} {walkInside : Nat → Walker Live}
    (hempty : item.count = 0 → ∃ closing, here = [closing] ∧
      closing.token.head ∈ [Byte.closeArray, Byte.closeObject])
    (hinside : item.count ≠ 0 → ∀ s' : State, s'.cursor = s.cursor →
      Tracks items (fun p => p.2.cursor) here left (walkInside item.count s')) :
    Tracks items (fun p => p.2.cursor) here left (walkContainer limit empty walkInside s) := by
  have hpush : Tracks items State.cursor [] (here ++ left) (Logged.push limit s) := by
    unfold Logged.push State.pushDepth
    by_cases hlimit : limit < s.depth + 1
    · rw [if_pos hlimit]
      exact .fail hs hlast
    · rw [if_neg hlimit]
      exact .pure hs hrest
  refine hpush.bind fun s' hs' hstands hleft => ?_
  have hcursor : s'.cursor = s.cursor := by
    rw [Logged.result_push, State.pushDepth] at hs'
    split at hs' <;> cases hs'
    rfl
  have hfits : (Event.count s'.cursor).Fits items :=
    .count hstands (hcursor ▸ hlast) hhead hw (by rw [hleft, hitems, List.cons_append]) hsize
  have hask : Tracks items (fun _ => s'.cursor) [] (here ++ left) (Logged.count s'.cursor) :=
    .ask hfits rfl fun _ _ => ⟨hstands, hleft⟩
  refine hask.bind fun n hn _ _ => ?_
  obtain rfl : n = item.count := by
    cases hn
    rw [Cursor.count, hcursor, hlast]
    rfl
  by_cases hcount : item.count = 0
  · obtain ⟨closing, rfl, hclosing⟩ := hempty hcount
    rw [if_pos hcount]
    have hskip : Tracks items State.cursor [closing] left (Logged.skip s') :=
      .skip hstands hleft (List.mem_cons_of_mem _ (List.mem_cons_of_mem _
        (List.mem_cons_of_mem _ hclosing)))
    exact hskip.map (fun s => (empty, s.popDepth)) fun _ => rfl
  · rw [if_neg hcount]
    exact (hinside hcount s' hcursor).map _ fun _ => rfl

/-- A key is passed and asked for its text, and its colon is passed. -/
theorem Tracks.key {β : Type} {out : β → Cursor} {key colon : Token}
    {here left : List Item} {f : Held Slice → State → Logged β} (hs : s.cursor.StandsIn items)
    (hrest : s.cursor.rest = ⟨key, 0⟩ :: ⟨colon, 0⟩ :: (here ++ left))
    (hkey : key.head = Byte.quote) (hcolon : colon.head = Byte.colon)
    (hf : ∀ (text : Held Slice) (s' : State), s'.cursor.StandsIn items →
      s'.cursor.rest = here ++ left → Tracks items out here left (f text s')) :
    Tracks items out (⟨key, 0⟩ :: ⟨colon, 0⟩ :: here) left
      (Logged.skip s >>= fun s => Logged.string r s.cursor >>= fun text =>
        Logged.skip s >>= f text) := by
  have hfirst : Tracks items State.cursor [⟨key, 0⟩] (⟨colon, 0⟩ :: here ++ left)
      (Logged.skip s) :=
    .skip hs hrest (by simp [hkey])
  refine hfirst.bind fun s' hs' hstands hleft => ?_
  obtain rfl : s' = s.skip := by
    cases hs'
    rfl
  have hlast : s.skip.cursor.last = some ⟨key, 0⟩ := by
    rw [State.skip_cursor, Cursor.skip_eq hrest]
  have htext : Tracks items (fun _ => s.skip.cursor) [] (⟨colon, 0⟩ :: here ++ left)
      (Logged.string r s.skip.cursor) :=
    .ask (.string hstands hlast hkey) rfl fun _ _ => ⟨hstands, hleft⟩
  refine htext.bind fun text _ _ _ => ?_
  have hsecond : Tracks items State.cursor [⟨colon, 0⟩] (here ++ left) (Logged.skip s.skip) :=
    .skip hstands hleft (by simp [hcolon])
  exact hsecond.bind fun s' _ hstands hleft => hf text s' hstands hleft

mutual

/-- The walk over a tree does everything in its place, and passes over its tokens. -/
theorem Node.tracks (w : Node) (hw : w.WellFormed) (ahead : Nat) (root : Bool) {s : State}
    (hs : s.cursor.StandsIn items) {left : List Item} (hrest : s.cursor.rest = w.items ++ left)
    (hahead : s.cursor.rest.length ≤ ahead) :
    Tracks items (fun p => p.2.cursor) w.items left (walkValue r ahead root s) := by
  have hother : (Byte.openObject == Byte.openArray) = false := rfl
  obtain ⟨ahead, rfl⟩ : ∃ n, ahead = n + 1 := by
    refine ⟨ahead - 1, ?_⟩
    rw [hrest, List.length_append] at hahead
    have hitems : 0 < w.items.length := by cases w <;> exact Nat.succ_pos _
    omega
  unfold walkValue
  apply Tracks.asValue hs hw hrest
  cases w with
  | atom t =>
    have harray : (t.head == Byte.openArray) = false :=
      beq_eq_false_iff_ne.mpr (head_of_atom hw.1).1
    have hobject : (t.head == Byte.openObject) = false :=
      beq_eq_false_iff_ne.mpr (head_of_atom hw.1).2
    refine .begin hs hw hrest hahead rfl fun s' hstands hlast hleft _ => ?_
    simp only [harray, hobject, Bool.false_eq_true, if_false]
    have hatom := tracks_walkAtom r hstands hlast root
    rw [hleft] at hatom
    exact hatom.map _ fun _ => rfl
  | emptyArray opening closing =>
    refine .begin hs hw hrest hahead rfl fun s' hstands hlast hleft _ => ?_
    simp only [hw.1, beq_self_eq_true, if_true]
    exact tracks_walkContainer hstands hlast hleft (.inl hw.1) hw rfl rfl
      (fun _ => ⟨_, rfl, by simp [hw.2]⟩) fun hcount => absurd rfl hcount
  | emptyObject opening closing =>
    refine .begin hs hw hrest hahead rfl fun s' hstands hlast hleft _ => ?_
    simp only [hw.1, hother, Bool.false_eq_true, if_false, beq_self_eq_true, if_true]
    exact tracks_walkContainer hstands hlast hleft (.inr hw.1) hw rfl rfl
      (fun _ => ⟨_, rfl, by simp [hw.2]⟩) fun hcount => absurd rfl hcount
  | array opening elements =>
    refine .begin hs hw hrest hahead rfl fun s' hstands hlast hleft hahead => ?_
    simp only [hw.1, beq_self_eq_true, if_true]
    -- The count is the number of elements, so the walk asks for all of them and no more.
    refine tracks_walkContainer hstands hlast hleft (.inl hw.1) hw rfl rfl
      (fun hcount => absurd hcount elements.count_ne_zero) fun _ inner hinner => ?_
    rw [← hinner] at hstands hleft hahead
    exact (elements.tracks hw.2 ahead hstands hleft hahead).map _ fun _ => rfl
  | object opening members =>
    refine .begin hs hw hrest hahead rfl fun s' hstands hlast hleft hahead => ?_
    simp only [hw.1, hother, Bool.false_eq_true, if_false, beq_self_eq_true, if_true]
    refine tracks_walkContainer hstands hlast hleft (.inr hw.1) hw rfl rfl
      (fun hcount => absurd hcount members.count_ne_zero) fun _ inner hinner => ?_
    rw [← hinner] at hstands hleft hahead
    exact (members.tracks hw.2 ahead _ hstands hleft hahead).map _ fun _ => rfl

theorem Nodes.tracks (elements : Nodes) (hv : elements.WellFormed) (ahead : Nat) {s : State}
    (hs : s.cursor.StandsIn items) {left : List Item}
    (hrest : s.cursor.rest = elements.items ++ left) (hahead : s.cursor.rest.length ≤ ahead) :
    Tracks items (fun p => p.2.cursor) elements.items left
      (walkElements (walkValue r ahead false) elements.count s) := by
  cases elements with
  | last v closing =>
    rw [Nodes.items, List.append_assoc] at hrest
    refine (v.tracks hv.1 ahead false hs hrest hahead).bind fun p _ hstands hleft => ?_
    have hskip : Tracks items State.cursor [⟨closing, 0⟩] left (Logged.skip p.2) :=
      .skip hstands hleft (by simp [hv.2])
    exact hskip.map _ fun _ => rfl
  | more v comma elements =>
    rw [Nodes.items, List.append_assoc] at hrest
    refine (v.tracks hv.1 ahead false hs hrest hahead).bind fun p _ hstands hleft' => ?_
    have hskip : Tracks items State.cursor [⟨comma, 0⟩] (elements.items ++ left)
        (Logged.skip p.2) :=
      .skip hstands hleft' (by simp [hv.2.1])
    refine hskip.bind fun s' _ hstands hleft => ?_
    have hfewer : s'.cursor.rest.length ≤ ahead :=
      Cursor.length_rest_le [⟨comma, 0⟩] hleft' hleft
        (Cursor.length_rest_le v.items hrest hleft' hahead)
    exact (elements.tracks hv.2.2 ahead hstands hleft hfewer).map _ fun _ => rfl

theorem Fields.tracks (members : Fields) (hv : members.WellFormed) (ahead : Nat)
    (o : Object Slice Live) {s : State} (hs : s.cursor.StandsIn items) {left : List Item}
    (hrest : s.cursor.rest = members.items ++ left) (hahead : s.cursor.rest.length ≤ ahead) :
    Tracks items (fun p => p.2.cursor) members.items left
      (walkMembers r (walkValue r ahead false) members.count o s) := by
  cases members with
  | last key colon v closing =>
    obtain ⟨hkey, hcolon, hv, hclosing⟩ := hv
    refine .key r hs hrest hkey hcolon fun text s' hstands hleft => ?_
    have hfewer : s'.cursor.rest.length ≤ ahead :=
      Cursor.length_rest_le [⟨key, 0⟩, ⟨colon, 0⟩] hrest hleft hahead
    rw [List.append_assoc] at hleft
    refine (v.tracks hv ahead false hstands hleft hfewer).bind fun p _ hstands hleft => ?_
    have hskip : Tracks items State.cursor [⟨closing, 0⟩] left (Logged.skip p.2) :=
      .skip hstands hleft (by simp [hclosing])
    exact hskip.map _ fun _ => rfl
  | more key colon v comma members =>
    obtain ⟨hkey, hcolon, hv, hcomma, hmembers⟩ := hv
    refine .key r hs hrest hkey hcolon fun text s' hstands hleft => ?_
    have hfewer : s'.cursor.rest.length ≤ ahead :=
      Cursor.length_rest_le [⟨key, 0⟩, ⟨colon, 0⟩] hrest hleft hahead
    rw [List.append_assoc] at hleft
    refine (v.tracks hv ahead false hstands hleft hfewer).bind fun p _ hstands hleft' => ?_
    have hskip : Tracks items State.cursor [⟨comma, 0⟩] (members.items ++ left)
        (Logged.skip p.2) :=
      .skip hstands hleft' (by simp [hcomma])
    refine hskip.bind fun s'' _ hstands hleft'' => ?_
    have hfewer' : s''.cursor.rest.length ≤ ahead :=
      Cursor.length_rest_le [⟨comma, 0⟩] hleft' hleft''
        (Cursor.length_rest_le v.items hleft hleft' hfewer)
    exact members.tracks hmembers ahead _ hstands hleft'' hfewer'

end

end

/-! ## §4 Whole texts -/

/-- A walk over a tree that is written down: what it read, and how it kept in step. -/
structure InStep (v : Node) (read : Except Fault (Live × State))
    (walk : Logged (Live × State)) : Prop where
  result_eq : walk.result = read
  /-- No question goes astray. -/
  fits : ∀ e ∈ walk.log, e.Fits v.items
  /-- No token is passed twice or left out. -/
  passed_prefix : passed walk.log <+: v.items
  /-- A value takes up all tokens, and the cursor stands behind the last one. -/
  at_end : ∀ x s, read = .ok (x, s) →
    passed walk.log = v.items ∧ s.cursor.rest = [] ∧ s.cursor.last = v.items.getLast?

/-- Of every text whose tokens form a value, the decoder's walk stays in step with the tokens,
whatever is asked for: it reads tokens that are there, counts of the containers that they belong to,
texts of strings, and passes each token once. -/
theorem decode_walk_inStep {input : Bytes} {c : Cursor} (h : Cursor.ofInput input = .ok c) :
    ∃ v : Node, v.WellFormed ∧ Token.scan input = .ok v.tokens ∧ c.rest = v.items ∧
      ∀ r : Request, InStep v (Decode.parseValue r c.rest.length true ⟨c, 0⟩)
        (Decode.walkValue r c.rest.length true ⟨c, 0⟩) := by
  obtain ⟨v, hv, hscan, rfl⟩ := (Cursor.ofInput_eq_ok_iff input c).mp h
  refine ⟨v, hv, hscan, rfl, fun r => ?_⟩
  have hstands : (⟨input.length, none, v.items⟩ : Cursor).StandsIn v.items := ⟨[], rfl, rfl⟩
  let s : State := ⟨⟨input.length, none, v.items⟩, 0⟩
  have htracks := v.tracks (s := s) r hv v.items.length true hstands (List.append_nil v.items).symm
    (Nat.le_refl _)
  have hresult := Decode.walkValue_result r v.items.length true s
  refine ⟨hresult, htracks.fits, htracks.passed_prefix, fun x s' hread => ?_⟩
  obtain ⟨hpassed, ⟨before, hitems, hlast⟩, hrest⟩ := htracks.done _ (hresult.trans hread)
  refine ⟨hpassed, hrest, ?_⟩
  rw [hlast, hitems, hrest, List.append_nil]

/-- An array whose second element is an object with an empty array in it. -/
def nestedInput : Bytes := Bytes.ofAscii "[1,\x7b\"a\":[]\x7d]"

/-- The walk passes ten tokens, asks for three counts, a text and a number, and reads four
values. -/
theorem decode_walk_inStep_nested :
    ∃ c v, Cursor.ofInput nestedInput = .ok c ∧ v.WellFormed ∧ v.items.length = 10 ∧
      InStep v (Decode.parseValue ⟨.borrowed, 0, 3⟩ c.rest.length true ⟨c, 0⟩)
        (Decode.walkValue ⟨.borrowed, 0, 3⟩ c.rest.length true ⟨c, 0⟩) ∧
      (Decode.walkValue ⟨.borrowed, 0, 3⟩ c.rest.length true ⟨c, 0⟩).log.length = 19 := by
  have hrun : (match Cursor.ofInput nestedInput with
      | .ok c => (c.rest.length,
        (Decode.walkValue ⟨.borrowed, 0, 3⟩ c.rest.length true ⟨c, 0⟩).log.length)
      | .error _ => (0, 0)) = (10, 19) := by decide +kernel
  split at hrun
  · rename_i c hcursor
    obtain ⟨hlength, hlog⟩ := Prod.mk.inj hrun
    obtain ⟨v, hv, -, hrest, hwalk⟩ := decode_walk_inStep hcursor
    exact ⟨c, v, hcursor, hv, hrest ▸ hlength, hwalk ⟨.borrowed, 0, 3⟩, hlog⟩
  · cases hrun

end JsonTree
