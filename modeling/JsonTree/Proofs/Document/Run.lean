import JsonTree.Document
import JsonTree.Proofs.Decode.Borrowed
import JsonTree.Proofs.Live.Encode
import Mathlib.Data.Finset.Card

/-!
# Runs of operations on documents

Operations act on a store of documents, one document at a time; copying reads a second one, and the
two share a buffer afterwards. A root may borrow, so the buffer that it borrows from must live as
long as it does. It does: whatever is parsed, copied, changed or forgotten, in whatever order, what
a root borrows is a slice of the buffer of its own document, which lives, as long as the values that
are stored in it by hand own their texts. A text that cannot be decoded leaves all documents as they
were.

A buffer that lives is told from one that was given up by the number of its holders, and that is the
number of documents that have it. So releasing the buffer of one document takes it from no other.

## Main definitions

- `Documents.Op`, `Documents.run`: the operations, and the answers and the store after a list of
  them.
- `Held.LiesAmong`: text that borrows from one buffer alone, and says what is there.
- `Documents.Sound`: buffers are counted, and roots borrow from what their buffers were given.
- `Documents.Consistent`: buffers live, and roots borrow from their own buffer alone.

## Main statements

- `Documents.Counted.put`: the count after one document is replaced.
- `Documents.step_sound`: every step keeps the store sound.
- `Documents.parse_of_ok`, `Documents.parse_of_error`: parsing replaces root and buffer together, or
  changes no document.
- `Document.run_consistent`: all this after every run from empty documents.
-/

namespace JsonTree

/-! ## §1 Operations -/

namespace Documents

/-- The operations on a document. -/
inductive Op where
  | parse (requested : Nat) (input : Bytes)
  | tryParse (requested : Nat) (input : Bytes)
  | reset
  /-- Become a copy of another document. -/
  | copy (source : Nat)
  | insert (key : Bytes) (member : Live)
  | push (element : Live)

/-- What an operation answers. -/
inductive Answer where
  | done
  | parsed (r : Except ParseError Unit)
  | tried (cause : Option Cause)
  | inserted (r : Except AccessError (Option Live))
  | pushed (r : Except AccessError Unit)

/-- Carry out an operation on a document of a store. -/
def Op.run (s : Documents) (i : Nat) : Op → Answer × Documents
  | .parse requested input => ((s.parse i requested input).map .parsed id)
  | .tryParse requested input => ((s.tryParse i requested input).map .tried id)
  | .reset => (.done, s.reset i)
  | .copy source => (.done, s.copy i source)
  | .insert key member => ((s.insert i key member).map .inserted id)
  | .push element => ((s.push i element).map .pushed id)

/-- Carry out operations in order, each on the document that stands before it. -/
def run (s : Documents) : List (Nat × Op) → List Answer × Documents
  | [] => ([], s)
  | (i, op) :: ops =>
    let (answer, s) := op.run s i
    let (answers, s) := run s ops
    (answer :: answers, s)

end Documents

/-! ## §2 Buffers -/

namespace Buffers

variable (s : Buffers)

/-- How many hold a buffer. -/
def holders (name : Nat) : Nat := s.all[name]?.elim 0 Buffer.holders

/-- What a buffer was given, whether or not it lives. -/
def stored? (name : Nat) : Option Bytes := s.all[name]?.map Buffer.bytes

theorem bytes?_of_holders {name : Nat} (h : s.holders name ≠ 0) :
    s.bytes? name = s.stored? name := by
  rw [holders] at h
  rw [bytes?, stored?]
  cases hbuffer : s.all[name]? with
  | none => rfl
  | some b =>
    rw [hbuffer] at h
    exact if_neg h

theorem exists_stored? {name : Nat} (h : s.holders name ≠ 0) : ∃ bs, s.stored? name = some bs := by
  rw [holders] at h
  rw [stored?]
  cases hbuffer : s.all[name]? with
  | none => exact absurd (by rw [hbuffer]; rfl) h
  | some b => exact ⟨b.bytes, rfl⟩

theorem holders_add (bytes : Bytes) (name : Nat) :
    (s.add bytes).2.holders name =
      s.holders name + if (s.add bytes).1 = name then 1 else 0 := by
  rw [add, holders, holders]
  by_cases hlast : s.all.length = name
  · subst hlast
    simp
  · rw [if_neg hlast]
    rcases Nat.lt_or_gt_of_ne hlast with hlt | hlt
    · have hbehind : (s.all ++ [(⟨bytes, 1⟩ : Buffer)]).length ≤ name := by
        rw [List.length_append]
        exact hlt
      rw [List.getElem?_eq_none hbehind, List.getElem?_eq_none hlt.le]
      rfl
    · rw [List.getElem?_append_left hlt]
      rfl

theorem stored?_add_self (bytes : Bytes) :
    (s.add bytes).2.stored? (s.add bytes).1 = some bytes := by
  simp [add, stored?]

theorem stored?_add {name : Nat} {bs : Bytes} (h : s.stored? name = some bs) (bytes : Bytes) :
    (s.add bytes).2.stored? name = some bs := by
  obtain ⟨b, hb, rfl⟩ := Option.map_eq_some_iff.mp h
  have hlt : name < s.all.length := (List.getElem?_eq_some_iff.mp hb).1
  rw [add, stored?, List.getElem?_append_left hlt, hb]
  rfl

/-- What was added is read until it is released. -/
theorem contents_add (bytes : Bytes) : (s.add bytes).2.contents (s.add bytes).1 = bytes := by
  have hholders : (s.add bytes).2.holders (s.add bytes).1 ≠ 0 := by
    rw [holders_add, if_pos rfl]
    exact Nat.succ_ne_zero _
  rw [contents, bytes?_of_holders _ hholders, stored?_add_self]
  rfl

theorem holders_hold {name : Nat} (h : s.holders name ≠ 0) (other : Nat) :
    (s.hold name).holders other = s.holders other + if name = other then 1 else 0 := by
  rw [hold, holders, holders, List.getElem?_modify]
  by_cases heq : name = other
  · subst heq
    rw [holders] at h
    cases hbuffer : s.all[name]? with
    | none => exact absurd (by rw [hbuffer]; rfl) h
    | some b => simp
  · cases s.all[other]? <;> simp [heq]

theorem holders_release (name other : Nat) :
    (s.release name).holders other = s.holders other - if name = other then 1 else 0 := by
  rw [release, holders, holders, List.getElem?_modify]
  by_cases heq : name = other <;> cases s.all[other]? <;> simp [heq]

theorem stored?_hold (name other : Nat) : (s.hold name).stored? other = s.stored? other := by
  rw [hold, stored?, stored?, List.getElem?_modify]
  by_cases heq : name = other <;> cases s.all[other]? <;> simp [heq]

theorem stored?_release (name other : Nat) : (s.release name).stored? other = s.stored? other := by
  rw [release, stored?, stored?, List.getElem?_modify]
  by_cases heq : name = other <;> cases s.all[other]? <;> simp [heq]

theorem holders_holdAny {name : Option Nat} (h : ∀ n, name = some n → s.holders n ≠ 0)
    (other : Nat) :
    (s.holdAny name).holders other = s.holders other + if name = some other then 1 else 0 := by
  cases name with
  | none => simp [holdAny]
  | some n => simpa [holdAny] using s.holders_hold (h n rfl) other

theorem holders_releaseAny (name : Option Nat) (other : Nat) :
    (s.releaseAny name).holders other = s.holders other - if name = some other then 1 else 0 := by
  cases name with
  | none => simp [releaseAny]
  | some n => simpa [releaseAny] using s.holders_release n other

theorem stored?_holdAny (name : Option Nat) (other : Nat) :
    (s.holdAny name).stored? other = s.stored? other := by
  cases name with
  | none => rfl
  | some n => exact s.stored?_hold n other

theorem stored?_releaseAny (name : Option Nat) (other : Nat) :
    (s.releaseAny name).stored? other = s.stored? other := by
  cases name with
  | none => rfl
  | some n => exact s.stored?_release n other

end Buffers

/-! ## §3 What roots borrow -/

/-- Text that borrows from one buffer alone, and says what is there, if buffers hold what is
given. -/
def Held.LiesAmong (stored : Nat → Option Bytes) (buffer : Option Nat) (t : Held Slice) : Prop :=
  ∀ slice, t = .borrowed slice →
    buffer = some slice.buffer ∧ ∃ bs, stored slice.buffer = some bs ∧ slice.Reads bs

section

variable {stored stored' : Nat → Option Bytes} {buffer : Option Nat} {t : Held Slice}

theorem Held.LiesAmong.of_owned (h : t.isBorrowed = false) : t.LiesAmong stored buffer := by
  rintro slice rfl
  cases h

theorem Held.LiesIn.among {name : Nat} {bs : Bytes} (h : t.LiesIn name bs)
    (hstored : stored name = some bs) : t.LiesAmong stored (some name) := by
  intro slice hslice
  obtain ⟨rfl, hreads⟩ := h slice hslice
  exact ⟨rfl, bs, hstored, hreads⟩

theorem Held.LiesAmong.mono (h : t.LiesAmong stored buffer)
    (hstored : ∀ name bs, buffer = some name → stored name = some bs → stored' name = some bs) :
    t.LiesAmong stored' buffer := by
  intro slice hslice
  obtain ⟨hbuffer, bs, hbs, hreads⟩ := h slice hslice
  exact ⟨hbuffer, bs, hstored _ bs hbuffer hbs, hreads⟩

end

namespace Live

variable {T : Held Slice → Prop} {root v : Live}

/-- What is stored comes into a row that is there already, which keeps its key, or into a new
row. -/
theorem EveryText.insert {key : Held Slice} {result : Option Live × Live} (hroot : root.EveryText T)
    (hkey : T key) (hv : v.EveryText T) (h : root.insert key v = .ok result) :
    result.2.EveryText T := by
  cases root with
  | object rows storage =>
    cases h
    change (ofObject ⟨storage, rows⟩).EveryText T at hroot
    rw [everyText_ofObject_iff] at hroot ⊢
    exact Object.forall_mem_insert hroot (fun row hrow => ⟨(hroot row hrow).1, hv⟩) ⟨hkey, hv⟩
  | null | bool | i64 | f64 | string | array => cases h

theorem EveryText.push (hroot : root.EveryText T) (hv : v.EveryText T) {changed : Live}
    (h : root.push v = .ok changed) : changed.EveryText T := by
  cases root with
  | array elements =>
    cases h
    rw [everyText_array_iff] at hroot ⊢
    exact List.forall_mem_append.mpr ⟨hroot, List.forall_mem_singleton.mpr hv⟩
  | null | bool | i64 | f64 | string | object => cases h

end Live

/-! ## §4 What a step keeps -/

namespace Documents

/-- Each buffer is held as often as documents have it. -/
def Counted (all : Nat → Document) (holders : Nat → Nat) : Prop :=
  ∀ name, ∃ holding : Finset Nat,
    (∀ i, i ∈ holding ↔ (all i).buffer = some name) ∧ holding.card = holders name

theorem Counted.holders_ne_zero {all : Nat → Document} {holders : Nat → Nat}
    (h : Counted all holders) {i name : Nat} (hi : (all i).buffer = some name) :
    holders name ≠ 0 := by
  obtain ⟨holding, hmem, hcard⟩ := h name
  rw [← hcard]
  exact Finset.card_ne_zero_of_mem ((hmem i).mpr hi)

/-- One document is replaced: its new buffer has one holder more, and its old one has one less. -/
theorem Counted.put {all : Nat → Document} {holders holders' : Nat → Nat} (h : Counted all holders)
    (i : Nat) (d : Document)
    (hholders : ∀ name, holders' name = holders name + (if d.buffer = some name then 1 else 0) -
      if (all i).buffer = some name then 1 else 0) :
    Counted (fun j => if j = i then d else all j) holders' := by
  intro name
  obtain ⟨holding, hmem, hcard⟩ := h name
  have hi := hmem i
  -- The document may have the buffer before, afterwards, both or neither.
  by_cases hnew : d.buffer = some name
  · refine ⟨Insert.insert i holding, fun j => ?_, ?_⟩
    · by_cases hj : j = i <;> simp [hj, hnew, hmem]
    · rw [hholders, if_pos hnew, ← hcard]
      by_cases hold : (all i).buffer = some name
      · rw [if_pos hold, Finset.insert_eq_of_mem (hi.mpr hold), Nat.add_sub_cancel]
      · rw [if_neg hold, Finset.card_insert_of_notMem (fun hin => hold (hi.mp hin)), Nat.sub_zero]
  · refine ⟨holding.erase i, fun j => ?_, ?_⟩
    · by_cases hj : j = i <;> simp [hj, hnew, hmem]
    · rw [hholders, if_neg hnew, ← hcard, Nat.add_zero]
      by_cases hold : (all i).buffer = some name
      · rw [if_pos hold, Finset.card_erase_of_mem (hi.mpr hold)]
      · rw [if_neg hold, Finset.erase_eq_of_notMem (fun hin => hold (hi.mp hin)), Nat.sub_zero]

/-- Buffers are counted, and roots borrow from what their own buffers were given. -/
structure Sound (s : Documents) : Prop where
  counted : Counted s.all s.buffers.holders
  backed : ∀ i, (s.all i).root.EveryText (Held.LiesAmong s.buffers.stored? (s.all i).buffer)

/-- The operation stores no borrowed text. -/
def Op.StoresOwned : Op → Prop
  | .insert _ member => member.OwnsTexts
  | .push element => element.OwnsTexts
  | .parse .. | .tryParse .. | .reset | .copy _ => True

theorem sound_empty : empty.Sound where
  counted _ := ⟨∅, fun _ => iff_of_false (Finset.notMem_empty _) nofun, rfl⟩
  backed _ := Live.everyText_of_nesting rfl nofun

variable {s : Documents}

theorem put_all_self (s : Documents) (i : Nat) (d : Document) : (s.put i d).all i = d := if_pos rfl

theorem put_all_of_ne (s : Documents) {i j : Nat} (h : j ≠ i) (d : Document) :
    (s.put i d).all j = s.all j := if_neg h

theorem Sound.holders_ne_zero (hs : s.Sound) {i name : Nat} (h : (s.all i).buffer = some name) :
    s.buffers.holders name ≠ 0 :=
  hs.counted.holders_ne_zero h

/-- One document is replaced, and buffers are held and released for it. -/
theorem Sound.put (hs : s.Sound) (i : Nat) (d : Document) {buffers : Buffers}
    (hholders : ∀ name, buffers.holders name =
      s.buffers.holders name + (if d.buffer = some name then 1 else 0) -
        if (s.all i).buffer = some name then 1 else 0)
    (hstored : ∀ name bs, s.buffers.stored? name = some bs → buffers.stored? name = some bs)
    (hroot : d.root.EveryText (Held.LiesAmong buffers.stored? d.buffer)) :
    (Documents.put { s with buffers } i d).Sound := by
  refine ⟨hs.counted.put i d hholders, fun j => ?_⟩
  by_cases hj : j = i
  · rw [hj, put_all_self]
    exact hroot
  -- The other roots are the same, and so is what their buffers were given.
  · rw [put_all_of_ne _ hj]
    exact (hs.backed j).mono fun t ht => ht.mono fun name bs _ => hstored name bs

/-- The store after a text was decoded: root and buffer of one document are replaced together. -/
theorem parse_of_ok {requested : Nat} {input : Bytes} {root : Live} (s : Documents) (i : Nat)
    (h : Live.decode .borrowed (s.buffers.add input).1 requested input = .ok root) :
    s.parse i requested input =
      (.ok (), put { s with buffers := (s.buffers.add input).2.releaseAny (s.all i).buffer } i
        ⟨some (s.buffers.add input).1, root⟩) := by
  rw [parse]
  simp only [Buffers.contents_add, h]

/-- The store after a text could not be decoded: all documents are as they were. -/
theorem parse_of_error {requested : Nat} {input : Bytes} {e : ParseError} (s : Documents) (i : Nat)
    (h : Live.decode .borrowed (s.buffers.add input).1 requested input = .error e) :
    s.parse i requested input =
      (.error e,
        { s with buffers := (s.buffers.add input).2.release (s.buffers.add input).1 }) := by
  rw [parse]
  simp only [Buffers.contents_add, h]

theorem Sound.parse (hs : s.Sound) (i requested : Nat) (input : Bytes) :
    (s.parse i requested input).2.Sound := by
  have hkept : ∀ name bs, s.buffers.stored? name = some bs →
      (s.buffers.add input).2.stored? name = some bs := fun _ _ h => s.buffers.stored?_add h input
  cases hdecode : Live.decode .borrowed (s.buffers.add input).1 requested input with
  | ok root =>
    -- The new buffer gets this document as its holder, and the old one loses it.
    rw [parse_of_ok s i hdecode]
    refine hs.put i _ (fun name => ?_) (fun name bs h => ?_) ?_
    · rw [Buffers.holders_releaseAny, Buffers.holders_add]
      simp only [Option.some.injEq]
    · rw [Buffers.stored?_releaseAny]
      exact hkept name bs h
    -- The new root borrows from the text that becomes the buffer.
    · refine (Live.decode_liesIn hdecode).mono fun t ht => ht.among ?_
      rw [Buffers.stored?_releaseAny, Buffers.stored?_add_self]
  | error e =>
    rw [parse_of_error s i hdecode]
    -- The buffer that the text was in has no holder any more, and the others have theirs.
    have hholders : ∀ name, ((s.buffers.add input).2.release (s.buffers.add input).1).holders name =
        s.buffers.holders name := fun name => by
      rw [Buffers.holders_release, Buffers.holders_add, Nat.add_sub_cancel]
    refine ⟨fun name => ?_, fun j => (hs.backed j).mono fun t ht => ht.mono fun name bs _ h => ?_⟩
    · rw [hholders]
      exact hs.counted name
    · rw [Buffers.stored?_release]
      exact hkept name bs h

theorem tryParse_snd (s : Documents) (i requested : Nat) (input : Bytes) :
    (s.tryParse i requested input).2 = (s.parse i requested input).2 := by
  rw [tryParse]
  split <;> rename_i heq <;> rw [heq]

theorem Sound.reset (hs : s.Sound) (i : Nat) : (s.reset i).Sound :=
  hs.put i .empty (fun name => by
      rw [Buffers.holders_releaseAny]
      rfl)
    (fun name bs h => by rwa [Buffers.stored?_releaseAny])
    (Live.everyText_of_nesting rfl nofun)

/-- The store after a document became a copy of another one. -/
theorem copy_of_ne (s : Documents) {i source : Nat} (h : i ≠ source) :
    s.copy i source = put
      { s with buffers := (s.buffers.holdAny (s.all source).buffer).releaseAny (s.all i).buffer } i
      ⟨(s.all source).buffer, (s.all source).root.copied⟩ := if_neg h

theorem Sound.copy (hs : s.Sound) (i source : Nat) : (s.copy i source).Sound := by
  by_cases heq : i = source
  · rw [Documents.copy, if_pos heq]
    exact hs
  · rw [copy_of_ne s heq]
    refine hs.put i _ (fun name => ?_) (fun name bs h => ?_) ?_
    · rw [Buffers.holders_releaseAny,
        Buffers.holders_holdAny _ (fun n hn => hs.holders_ne_zero hn)]
    · rwa [Buffers.stored?_releaseAny, Buffers.stored?_holdAny]
    -- A copy takes the buffer along with the root.
    · refine (hs.backed source).copied.mono fun t ht => ht.mono fun name bs _ h => ?_
      rwa [Buffers.stored?_releaseAny, Buffers.stored?_holdAny]

theorem Sound.changeRoot {ε α : Type} (hs : s.Sound) (i : Nat)
    {change : Live → Except ε (α × Live)}
    (hchange : ∀ result, change (s.all i).root = .ok result →
      result.2.EveryText (Held.LiesAmong s.buffers.stored? (s.all i).buffer)) :
    (s.changeRoot i change).2.Sound := by
  rw [Documents.changeRoot]
  cases hresult : change (s.all i).root with
  | error e => exact hs
  | ok result =>
    exact hs.put i ⟨(s.all i).buffer, result.2⟩ (fun name => (Nat.add_sub_cancel ..).symm)
      (fun _ _ h => h) (hchange result hresult)

theorem Sound.insert (hs : s.Sound) (i : Nat) (key : Bytes) {member : Live}
    (hmember : member.OwnsTexts) : (s.insert i key member).2.Sound :=
  hs.changeRoot i fun _ hinsert =>
    (hs.backed i).insert (.of_owned rfl) (hmember.mono fun _ => .of_owned) hinsert

theorem Sound.push (hs : s.Sound) (i : Nat) {element : Live} (helement : element.OwnsTexts) :
    (s.push i element).2.Sound :=
  hs.changeRoot i fun result hpush => by
    obtain ⟨root, hroot, rfl⟩ := map_eq_ok_iff.mp hpush
    exact (hs.backed i).push (helement.mono fun _ => .of_owned) hroot

/-- Every step keeps the store sound. -/
theorem step_sound (hs : s.Sound) (i : Nat) {op : Op} (hop : op.StoresOwned) :
    (op.run s i).2.Sound := by
  cases op with
  | parse requested input => exact hs.parse i requested input
  | tryParse requested input =>
    change (s.tryParse i requested input).2.Sound
    rw [tryParse_snd]
    exact hs.parse i requested input
  | reset => exact hs.reset i
  | copy source => exact hs.copy i source
  | insert key member => exact hs.insert i key hop
  | push element => exact hs.push i hop

theorem run_sound (hs : s.Sound) {ops : List (Nat × Op)} (hops : ∀ op ∈ ops, op.2.StoresOwned) :
    (run s ops).2.Sound := by
  induction ops generalizing s with
  | nil => exact hs
  | cons op ops ih =>
    obtain ⟨hop, hops⟩ := List.forall_mem_cons.mp hops
    exact ih (step_sound hs op.1 hop) hops

/-! ## §5 Buffers that live -/

/-- A buffer lives as long as some document has it, and roots borrow from the buffer of their own
document alone. -/
structure Consistent (s : Documents) : Prop where
  lives : ∀ i name, (s.all i).buffer = some name → ∃ bs, s.buffers.bytes? name = some bs
  backed : ∀ i, (s.all i).root.EveryText (Held.LiesAmong s.buffers.bytes? (s.all i).buffer)
  counted : Counted s.all s.buffers.holders

theorem Sound.bytes? (hs : s.Sound) {i name : Nat} (h : (s.all i).buffer = some name) :
    s.buffers.bytes? name = s.buffers.stored? name :=
  s.buffers.bytes?_of_holders (hs.holders_ne_zero h)

theorem Sound.consistent (hs : s.Sound) : s.Consistent where
  lives i name h := by
    rw [hs.bytes? h]
    exact s.buffers.exists_stored? (hs.holders_ne_zero h)
  backed i := (hs.backed i).mono fun t ht => ht.mono fun name bs hname h => by
    rwa [hs.bytes? hname]
  counted := hs.counted

theorem Sound.bytes_of_some (hs : s.Sound) {i name : Nat} {bs : Bytes}
    (h : (s.all i).buffer = some name) (hstored : s.buffers.stored? name = some bs) :
    s.bytes i = bs := by
  rw [bytes, h]
  change s.buffers.contents name = bs
  rw [Buffers.contents, hs.bytes? h, hstored]
  rfl

/-- Documents that have one buffer have its bytes, also in a later store. -/
theorem Sound.bytes_eq {s' : Documents} (hs : s.Sound) (hs' : s'.Sound) {i j : Nat}
    (hsame : (s'.all j).buffer = (s.all i).buffer)
    (hstored : ∀ name bs, s.buffers.stored? name = some bs → s'.buffers.stored? name = some bs) :
    s'.bytes j = s.bytes i := by
  cases hbuffer : (s.all i).buffer with
  | none => rw [bytes, bytes, hsame, hbuffer]; rfl
  | some name =>
    obtain ⟨bs, hbs⟩ := s.buffers.exists_stored? (hs.holders_ne_zero hbuffer)
    rw [hs.bytes_of_some hbuffer hbs,
      hs'.bytes_of_some (hsame.trans hbuffer) (hstored name bs hbs)]

/-- A text was decoded into a document, and the others are as they were. -/
structure Replaced (s s' : Documents) (i requested : Nat) (input : Bytes) (root : Value) :
    Prop where
  /-- The root is decoded from the buffer that the document has from then on. -/
  decoded : ∃ name, (s'.all i).buffer = some name ∧
    Live.decode .borrowed name requested input = .ok (s'.all i).root
  contents : (s'.all i).root.contents = root
  bytes : s'.bytes i = input
  others : ∀ j, j ≠ i → s'.all j = s.all j ∧ s'.bytes j = s.bytes j

/-- All documents are as they were. -/
structure Untouched (s s' : Documents) : Prop where
  all : s'.all = s.all
  bytes : ∀ j, s'.bytes j = s.bytes j

theorem Sound.parse_replaced (hs : s.Sound) (i : Nat) {requested : Nat} {input : Bytes}
    {root : Value} (h : decode .borrowed requested input = .ok root) :
    ∃ s', s.parse i requested input = (.ok (), s') ∧ Replaced s s' i requested input root := by
  have hlive := Live.contents_decode .borrowed (s.buffers.add input).1 requested input
  obtain ⟨v, hv, hcontents⟩ := map_eq_ok_iff.mp (hlive.trans h)
  have hparse := parse_of_ok s i hv
  have hsound := hs.parse i requested input
  rw [hparse] at hsound
  have hself := put_all_self
    { s with buffers := (s.buffers.add input).2.releaseAny (s.all i).buffer } i
    ⟨some (s.buffers.add input).1, v⟩
  refine ⟨_, hparse, ⟨_, congrArg Document.buffer hself, ?_⟩, ?_, ?_, fun j hj => ?_⟩
  · rw [hself]
    exact hv
  · rw [hself]
    exact hcontents
  · exact hsound.bytes_of_some (congrArg Document.buffer hself)
      ((Buffers.stored?_releaseAny ..).trans (s.buffers.stored?_add_self input))
  · have hother := put_all_of_ne
      { s with buffers := (s.buffers.add input).2.releaseAny (s.all i).buffer } hj
      ⟨some (s.buffers.add input).1, v⟩
    refine ⟨hother, hs.bytes_eq hsound (congrArg Document.buffer hother) fun name bs hbs => ?_⟩
    exact (Buffers.stored?_releaseAny ..).trans (s.buffers.stored?_add hbs input)

theorem Sound.parse_untouched (hs : s.Sound) (i : Nat) {requested : Nat} {input : Bytes}
    {e : ParseError} (h : decode .borrowed requested input = .error e) :
    ∃ s', s.parse i requested input = (.error e, s') ∧ Untouched s s' := by
  have hlive := Live.contents_decode .borrowed (s.buffers.add input).1 requested input
  have hparse := parse_of_error s i (map_eq_error_iff.mp (hlive.trans h))
  have hsound := hs.parse i requested input
  rw [hparse] at hsound
  refine ⟨_, hparse, rfl, fun j => hs.bytes_eq hsound rfl fun name bs hbs => ?_⟩
  exact (Buffers.stored?_release ..).trans (s.buffers.stored?_add hbs input)

theorem Sound.copy_shared (hs : s.Sound) (i source : Nat) :
    ((s.copy i source).all i).buffer = (s.all source).buffer ∧
      ((s.copy i source).all i).root.contents = (s.all source).root.contents ∧
      (s.copy i source).bytes i = s.bytes source := by
  have hsound := hs.copy i source
  by_cases heq : i = source
  · subst heq
    rw [Documents.copy, if_pos rfl]
    exact ⟨rfl, rfl, rfl⟩
  · rw [copy_of_ne s heq] at hsound ⊢
    rw [put_all_self]
    refine ⟨rfl, Live.contents_copied _, hs.bytes_eq hsound ?_ fun name bs hbs => ?_⟩
    · rw [put_all_self]
    · exact ((Buffers.stored?_releaseAny ..).trans (Buffers.stored?_holdAny ..)).trans hbs

end Documents

/-! ## §6 Runs -/

namespace Document

open Documents (Op run Consistent Replaced Untouched)

/-- After every run from empty documents, in which no borrowed text is stored, each buffer that a
document has lives, and what a root borrows is a slice of the buffer of its own document. A text
that is parsed then replaces root and buffer together if it can be decoded; otherwise no document
changes, and the error of decoding is told. A copy has the same buffer and says the same. -/
theorem run_consistent {ops : List (Nat × Op)} (hops : ∀ op ∈ ops, op.2.StoresOwned) :
    let s := (run .empty ops).2
    s.Consistent ∧
    (∀ i requested input,
      (∀ root, decode .borrowed requested input = .ok root →
        ∃ s', (Op.parse requested input).run s i = (.parsed (.ok ()), s') ∧
          (Op.tryParse requested input).run s i = (.tried none, s') ∧
          Replaced s s' i requested input root) ∧
      ∀ e, decode .borrowed requested input = .error e →
        ∃ s', (Op.parse requested input).run s i = (.parsed (.error e), s') ∧
          (Op.tryParse requested input).run s i = (.tried (some e.cause), s') ∧
          Untouched s s') ∧
    ∀ i source, let s' := ((Op.copy source).run s i).2
      (s'.all i).buffer = (s.all source).buffer ∧
        (s'.all i).root.contents = (s.all source).root.contents ∧
        s'.bytes i = s.bytes source := by
  intro s
  have hs : s.Sound := Documents.run_sound Documents.sound_empty hops
  refine ⟨hs.consistent, fun i requested input => ⟨fun root hroot => ?_, fun e he => ?_⟩,
    fun i source => hs.copy_shared i source⟩
  · obtain ⟨s', hparse, hreplaced⟩ := hs.parse_replaced i hroot
    refine ⟨s', ?_, ?_, hreplaced⟩
    · rw [Op.run, hparse]
      rfl
    · rw [Op.run, Documents.tryParse, hparse]
      rfl
  · obtain ⟨s', hparse, huntouched⟩ := hs.parse_untouched i he
    refine ⟨s', ?_, ?_, huntouched⟩
    · rw [Op.run, hparse]
      rfl
    · rw [Op.run, Documents.tryParse, hparse]
      rfl

/-- A document is parsed and copied, a member of the copy replaced under its borrowed key, and the
first document parsed anew. -/
def copiedRun : List (Nat × Op) :=
  [(0, .parse 0 [123, 34, 97, 34, 58, 34, 98, 34, 125]), (1, .copy 0),
    (1, .insert [97] (.string (.owned [99]))), (0, .tryParse 0 [91, 34, 100, 34, 93])]

/-- The copy has the first buffer, and its key is a slice of it; the first document has moved on to
the second one. A broken text then changes neither. -/
theorem run_consistent_copied :
    let s := (run .empty copiedRun).2
    (∀ op ∈ copiedRun, op.2.StoresOwned) ∧
      s.all 0 = ⟨some 1, .array [.string (.borrowed ⟨1, 2, [100]⟩)]⟩ ∧
      (s.all 1).buffer = some 0 ∧
      (s.all 1).root.asObject.map (·.rows) =
        some [(.borrowed ⟨0, 2, [97]⟩, .string (.owned [99]))] ∧
      s.buffers.bytes? 0 = some [123, 34, 97, 34, 58, 34, 98, 34, 125] ∧
      s.Consistent ∧
      (∃ s', (Op.tryParse 0 [91, 34, 100, 34]).run s 1 = (.tried (some .unterminatedArray), s') ∧
        Untouched s s') ∧
      ∃ s', (Op.parse 0 [110, 117, 108, 108]).run s 1 = (.parsed (.ok ()), s') ∧
        Replaced s s' 1 0 [110, 117, 108, 108] .null := by
  intro s
  have hops : ∀ op ∈ copiedRun, op.2.StoresOwned := by
    have howned : (Live.string (.owned [99])).OwnsTexts := (Live.everyText_string_iff _).mpr rfl
    simp [copiedRun, Op.StoresOwned, howned]
  have herror : decode .borrowed 0 [91, 34, 100, 34] =
      .error ⟨.unterminatedArray, ⟨1, 5, 4⟩, Bytes.ofAscii "unterminated array"⟩ := rfl
  have hnull : decode .borrowed 0 [110, 117, 108, 108] = .ok .null := rfl
  obtain ⟨hconsistent, hparse, -⟩ := run_consistent hops
  obtain ⟨s', -, htried, huntouched⟩ := (hparse 1 0 _).2 _ herror
  obtain ⟨s'', hparsed, -, hreplaced⟩ := (hparse 1 0 _).1 _ hnull
  exact ⟨hops, rfl, rfl, rfl, rfl, hconsistent, ⟨s', htried, huntouched⟩, s'', hparsed, hreplaced⟩

end Document

end JsonTree
