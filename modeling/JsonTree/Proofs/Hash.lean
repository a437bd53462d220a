import JsonTree.Hash
import Mathlib.Data.List.Induction
import Mathlib.Data.Nat.Digits.Defs
import Mathlib.Data.Nat.ModEq
import Mathlib.Data.Nat.Prime.Basic

/-!
# What the key hash tells apart

The words that a key gives may overlap, but none of them reaches beyond the key and no byte is left
out. So keys of one length give the same words only if they are the same key.

Each part of a mixing step is a permutation of the words: exclusive or with a fixed word,
multiplication by an odd word, exclusive or of a word with its own shift. Two runs of the hash that
have come apart therefore never meet again while they take in the same words, and keys of one
length that differ in one word only cannot have the same hash.

## Main definitions

- `Hash.positions`: the positions of all bytes that are read.
- `Hash.loadsFrom`: the reading of a long text, block after block.
- `Hash.sequence`: the words that a key gives, one after the other.
- `Hash.OneApart`: sequences that differ in exactly one place.

## Main statements

- `Hash.mem_positions_iff`: every byte of a key is read, and nothing else.
- `Hash.words_eq_iff`: keys of one length are told apart by their words.
- `Hash.foldl_mix_ne`: words that differ in one place are mixed to different states.
- `Hash.hash_separates`: which keys of one length have different hashes.
-/

namespace JsonTree.Hash

variable {bs xs ys : Bytes} {ps : List Nat} {n i : Nat}

/-! ## §1 Which bytes are read -/

/-- The positions of all bytes that are read of a text of `n` bytes. -/
def positions (n : Nat) : List Nat := (loads n).flatMap fun (a, b) => a ++ b

theorem mem_span_iff {start width : Nat} :
    i ∈ span start width ↔ start ≤ i ∧ i < start + width := by
  simp only [span, List.mem_map, List.mem_reverse, List.mem_range]
  constructor
  · rintro ⟨k, hk, rfl⟩
    omega
  · intro h
    exact ⟨i - start, by omega, by omega⟩

/-- What is read of a long text of `n` bytes from position `p` on: blocks while more than sixteen
bytes are left, and then the last sixteen bytes of the text, or what there is of them. -/
def loadsFrom (n p : Nat) : List (List Nat × List Nat) :=
  if 16 < n - p then (span p 8, span (p + 8) 8) :: loadsFrom n (p + 16)
  else [(span (n - min n 16) 8, span (n - 8) 8)]
termination_by n - p

theorem loadsFrom_eq (n p : Nat) :
    loadsFrom n p =
      (List.range ((n - p - 1) / 16)).map
          (fun k => (span (p + 16 * k) 8, span (p + 16 * k + 8) 8)) ++
        [(span (n - min n 16) 8, span (n - 8) 8)] := by
  fun_induction loadsFrom n p with
  | case1 p hleft ih =>
    have hcount : (n - p - 1) / 16 = (n - (p + 16) - 1) / 16 + 1 := by omega
    have hstart : ∀ k, p + 16 + 16 * k = p + 16 * (k + 1) := by omega
    rw [ih, hcount, List.range_succ_eq_map, List.map_cons, List.map_map]
    simp only [hstart]
    rfl
  | case2 p hleft =>
    have hcount : (n - p - 1) / 16 = 0 := by omega
    rw [hcount]
    rfl

/-- A long text is read from its beginning on. -/
theorem loads_eq_loadsFrom (h : 8 < n) : loads n = loadsFrom n 0 := by
  rw [loads, if_neg (by omega), if_neg (by omega), if_neg (by omega), loadsFrom_eq]
  simp only [Nat.zero_add, Nat.sub_zero]

/-- From a position on, all bytes behind it are read, and the last sixteen ones in any case. -/
theorem mem_loadsFrom_iff (h : 8 < n) (p : Nat) :
    (∃ load ∈ loadsFrom n p, i ∈ load.1 ++ load.2) ↔ (p ≤ i ∨ n - 16 ≤ i) ∧ i < n := by
  fun_induction loadsFrom n p with
  | case1 p hleft ih =>
    -- The block reads its own sixteen bytes, and the rest of the loop all that is behind it.
    simp only [List.mem_cons, exists_eq_or_imp]
    rw [ih, List.mem_append, mem_span_iff, mem_span_iff]
    omega
  | case2 p hleft =>
    -- No more than sixteen bytes are left, so the last sixteen reach back to all of them.
    simp only [List.mem_singleton, exists_eq_left, List.mem_append, mem_span_iff]
    omega

/-- Every byte of a text is read, and nothing outside of it. -/
theorem mem_positions_iff : i ∈ positions n ↔ i < n := by
  by_cases hlong : 8 < n
  · rw [positions, List.mem_flatMap, loads_eq_loadsFrom hlong, mem_loadsFrom_iff hlong]
    omega
  · unfold positions loads
    split_ifs with hempty hfew
    · simp [hempty]
    · simp only [List.flatMap_cons, List.flatMap_nil, List.mem_append, List.mem_cons,
        List.not_mem_nil, or_false]
      omega
    · simp only [List.flatMap_cons, List.flatMap_nil, List.mem_append, mem_span_iff,
        List.not_mem_nil, or_false]
      omega
    · omega

theorem length_span (start width : Nat) : (span start width).length = width := by
  rw [span, List.length_map, List.length_reverse, List.length_range]

/-- No word has more than eight bytes. -/
theorem length_le_of_mem_loads {load : List Nat × List Nat} (h : load ∈ loads n) :
    load.1.length ≤ 8 ∧ load.2.length ≤ 8 := by
  unfold loads at h
  split_ifs at h
  · obtain rfl := List.mem_singleton.mp h
    decide
  · obtain rfl := List.mem_singleton.mp h
    exact ⟨by simp, by simp⟩
  · obtain rfl := List.mem_singleton.mp h
    simp only [length_span]
    decide
  · obtain hblock | hlast := List.mem_append.mp h
    · obtain ⟨k, -, rfl⟩ := List.mem_map.mp hblock
      exact ⟨(length_span _ 8).le, (length_span _ 8).le⟩
    · obtain rfl := List.mem_singleton.mp hlast
      exact ⟨(length_span _ 8).le, (length_span _ 8).le⟩

/-! ## §2 Words and their bytes -/

/-- One more byte is taken into a word that has room for it. -/
theorem toNat_shiftLeft_or {w : UInt64} (b : UInt8) (h : w.toNat < 2 ^ 56) :
    (w <<< 8 ||| b.toUInt64).toNat = b.toNat + 256 * w.toNat := by
  have hb := b.toNat_lt
  have hshift : (w <<< 8).toNat = w.toNat <<< 8 := by
    rw [UInt64.toNat_shiftLeft]
    have hroom : w.toNat <<< 8 < 2 ^ 64 := by
      rw [Nat.shiftLeft_eq]
      omega
    exact Nat.mod_eq_of_lt hroom
  rw [UInt64.toNat_or, hshift, UInt8.toNat_toUInt64, ← Nat.shiftLeft_add_eq_or_of_lt hb,
    Nat.shiftLeft_eq]
  omega

/-- The values of the bytes at the given positions. -/
def digits (bs : Bytes) (ps : List Nat) : List Nat := ps.map fun i => (bs.getD i 0).toNat

theorem digits_lt {d : Nat} (h : d ∈ digits bs ps) : d < 256 := by
  obtain ⟨i, -, rfl⟩ := List.mem_map.mp h
  exact (bs.getD i 0).toNat_lt

theorem ofDigits_digits_lt (bs : Bytes) (ps : List Nat) :
    Nat.ofDigits 256 (digits bs ps).reverse < 256 ^ ps.length := by
  have hlen : (digits bs ps).reverse.length = ps.length := by
    rw [List.length_reverse, digits, List.length_map]
  rw [← hlen]
  exact Nat.ofDigits_lt_base_pow_length (by decide) fun d hd => digits_lt (List.mem_reverse.mp hd)

/-- A word is the number whose digits are its bytes. -/
theorem toNat_pack (h : ps.length ≤ 8) :
    (pack bs ps).toNat = Nat.ofDigits 256 (digits bs ps).reverse := by
  -- The byte that is packed last is the lowest digit, so the induction takes it off first.
  induction ps using List.reverseRecOn with
  | nil => rfl
  | append_singleton ps i ih =>
    rw [List.length_append, List.length_singleton] at h
    have hword := ih (by omega)
    have hroom : (pack bs ps).toNat < 2 ^ 56 :=
      calc (pack bs ps).toNat < 256 ^ ps.length := hword ▸ ofDigits_digits_lt bs ps
        _ ≤ 256 ^ 7 := Nat.pow_le_pow_right (by decide) (by omega)
        _ = 2 ^ 56 := by decide
    have hpack : pack bs (ps ++ [i]) = pack bs ps <<< 8 ||| (bs.getD i 0).toUInt64 := by
      rw [pack, List.foldl_append]
      rfl
    have hdigits : (digits bs (ps ++ [i])).reverse =
        (bs.getD i 0).toNat :: (digits bs ps).reverse := by
      rw [digits, List.map_append, List.reverse_append]
      rfl
    rw [hpack, toNat_shiftLeft_or _ hroom, hword, hdigits, Nat.ofDigits_cons]

/-- A word of up to eight bytes tells each of them. -/
theorem pack_eq_iff (h : ps.length ≤ 8) :
    pack xs ps = pack ys ps ↔ ∀ i ∈ ps, xs.getD i 0 = ys.getD i 0 := by
  have hdigits : digits xs ps = digits ys ps ↔ ∀ i ∈ ps, xs.getD i 0 = ys.getD i 0 := by
    simp only [digits, List.map_inj_left, UInt8.toNat_inj]
  rw [← hdigits, ← UInt64.toNat_inj, toNat_pack h, toNat_pack h]
  constructor
  · intro hnumber
    refine List.reverse_inj.mp (Nat.ofDigits_inj_of_len_eq (by decide) ?_
      (fun d hd => digits_lt (List.mem_reverse.mp hd))
      (fun d hd => digits_lt (List.mem_reverse.mp hd)) hnumber)
    simp only [digits, List.length_reverse, List.length_map]
  · intro hsame
    rw [hsame]

/-- Texts of one length give the same words only if they are the same. -/
theorem words_eq_iff (hlen : xs.length = ys.length) : words xs = words ys ↔ xs = ys := by
  constructor
  · intro hwords
    have hbytes : ∀ i < xs.length, xs.getD i 0 = ys.getD i 0 := by
      intro i hi
      -- Some word is packed from the byte, and that word is the same for both texts.
      obtain ⟨load, hload, hmem⟩ := List.mem_flatMap.mp (mem_positions_iff.mpr hi)
      obtain ⟨hfirst, hsecond⟩ := length_le_of_mem_loads hload
      rw [words, words, ← hlen] at hwords
      have hpair := Prod.mk.inj (List.map_inj_left.mp hwords load hload)
      obtain hmem | hmem := List.mem_append.mp hmem
      · exact (pack_eq_iff hfirst).mp hpair.1 i hmem
      · exact (pack_eq_iff hsecond).mp hpair.2 i hmem
    refine List.ext_getElem hlen fun i hx hy => ?_
    rw [List.getElem_eq_getD 0, List.getElem_eq_getD 0]
    exact hbytes i hx
  · intro hsame
    rw [hsame]

/-! ## §3 Words one after the other -/

/-- The words of some pairs, one after the other. -/
def inTurn (pairs : List (UInt64 × UInt64)) : List UInt64 := pairs.flatMap fun (a, b) => [a, b]

/-- The words that a byte string gives, one after the other. -/
def sequence (bs : Bytes) : List UInt64 := inTurn (words bs)

/-- Sequences that differ in exactly one place. -/
def OneApart (us vs : List UInt64) : Prop := ∃! i : Nat, us[i]? ≠ vs[i]?

theorem inTurn_cons (a b : UInt64) (pairs : List (UInt64 × UInt64)) :
    inTurn ((a, b) :: pairs) = a :: b :: inTurn pairs := rfl

theorem inTurn_injective : Function.Injective inTurn := by
  intro pairs pairs' h
  induction pairs generalizing pairs' with
  | nil =>
    cases pairs' with
    | nil => rfl
    | cons => cases h
  | cons pair pairs ih =>
    cases pairs' with
    | nil => cases h
    | cons pair' pairs' =>
      obtain ⟨hfirst, hrest⟩ := List.cons.inj h
      obtain ⟨hsecond, hpairs⟩ := List.cons.inj hrest
      rw [Prod.ext hfirst hsecond, ih hpairs]

/-- Texts of one length are told apart by the sequences of their words. -/
theorem sequence_eq_iff (hlen : xs.length = ys.length) : sequence xs = sequence ys ↔ xs = ys := by
  rw [sequence, sequence, inTurn_injective.eq_iff, words_eq_iff hlen]

namespace OneApart

variable {us vs : List UInt64} {u v : UInt64}

/-- Sequences that agree but for one place, where they do not. -/
theorem of_ne (hne : us ≠ vs) {j : Nat} (h : ∀ i, i ≠ j → us[i]? = vs[i]?) : OneApart us vs := by
  have hplace : us[j]? ≠ vs[j]? := by
    intro hj
    refine hne (List.ext_getElem? fun i => ?_)
    by_cases hi : i = j
    · rw [hi, hj]
    · exact h i hi
  exact ⟨j, hplace, fun i hi => by_contra fun hij => hi (h i hij)⟩

/-- The one place is the first one, or it is one of the others. -/
theorem cons_cases (h : OneApart (u :: us) (v :: vs)) :
    (u ≠ v ∧ us = vs) ∨ (u = v ∧ OneApart us vs) := by
  obtain ⟨j, hj, honly⟩ := h
  cases j with
  | zero =>
    refine .inl ⟨fun huv => hj (congrArg some huv), List.ext_getElem? fun i => ?_⟩
    by_contra hi
    exact Nat.succ_ne_zero i (honly (i + 1) hi)
  | succ j =>
    refine .inr ⟨?_, j, hj, fun i hi => Nat.succ.inj (honly (i + 1) hi)⟩
    by_contra huv
    exact Nat.succ_ne_zero j (honly 0 fun h => huv (Option.some.inj h)).symm

end OneApart

/-! ## §4 Permutations of the words -/

/-- An odd word has an inverse modulo `2 ^ 64`. -/
theorem mul_injective_of_odd {m : UInt64} (h : Odd m.toNat) :
    Function.Injective fun w : UInt64 => w * m := by
  intro v w hproduct
  have hcoprime : Nat.Coprime (2 ^ 64) m.toNat := (Nat.coprime_two_left.mpr h).pow_left 64
  have hmod : Nat.ModEq (2 ^ 64) (v.toNat * m.toNat) (w.toNat * m.toNat) := by
    have hnumbers := congrArg UInt64.toNat hproduct
    rwa [UInt64.toNat_mul, UInt64.toNat_mul] at hnumbers
  have hwords := Nat.ModEq.cancel_right_of_coprime hcoprime hmod
  exact UInt64.toNat_inj.mp (hwords.eq_of_lt_of_lt v.toNat_lt w.toNat_lt)

/-- A word is told by its exclusive or with its own shift. -/
theorem xorShift_injective {k : UInt64} (h : k.toNat % 64 ≠ 0) :
    Function.Injective fun w : UInt64 => w ^^^ (w >>> k) := by
  intro v w hvw
  -- The difference of the two words is its own shift, and only zero is that.
  have hshift : v ^^^ w = (v ^^^ w) >>> k := by
    rw [UInt64.shiftRight_xor, ← UInt64.xor_eq_zero_iff]
    calc (v ^^^ w) ^^^ (v >>> k ^^^ w >>> k)
        = (v ^^^ (v >>> k)) ^^^ (w ^^^ (w >>> k)) := by ac_rfl
      _ = 0 := UInt64.xor_eq_zero_iff.mpr hvw
  have hhalf : (v ^^^ w).toNat = (v ^^^ w).toNat / 2 ^ (k.toNat % 64) := by
    rw [← Nat.shiftRight_eq_div_pow, ← UInt64.toNat_shiftRight, ← hshift]
  have hzero : (v ^^^ w).toNat = 0 := by
    by_contra hpos
    have hless := Nat.div_lt_self (Nat.pos_of_ne_zero hpos) (Nat.one_lt_two_pow h)
    omega
  exact UInt64.xor_eq_zero_iff.mp (UInt64.toNat_inj.mp hzero)

theorem odd_seed : Odd seed.toNat := by decide

theorem odd_factor : Odd factor.toNat := by decide

/-- A step keeps states apart. -/
theorem mix_injective (ab : UInt64 × UInt64) : Function.Injective fun state => mix state ab := by
  intro s s' h
  have hsecond := (UInt64.xor_left_inj _).mp (mul_injective_of_odd odd_seed h)
  exact (UInt64.xor_left_inj _).mp (mul_injective_of_odd odd_factor hsecond)

/-- A step tells the first word of its pair. -/
theorem mix_first_injective (state b : UInt64) :
    Function.Injective fun a => mix state (a, b) := by
  intro a a' h
  have hsecond := (UInt64.xor_left_inj _).mp (mul_injective_of_odd odd_seed h)
  exact (UInt64.xor_right_inj _).mp (mul_injective_of_odd odd_factor hsecond)

/-- A step tells the second word of its pair. -/
theorem mix_second_injective (state a : UInt64) :
    Function.Injective fun b => mix state (a, b) :=
  fun _ _ h => (UInt64.xor_right_inj _).mp (mul_injective_of_odd odd_seed h)

theorem scramble_injective : Function.Injective scramble := by
  intro s s' h
  have hproduct := xorShift_injective (k := 29) (by decide) h
  exact xorShift_injective (k := 32) (by decide) (mul_injective_of_odd odd_seed hproduct)

/-! ## §5 Runs -/

/-- States that have come apart stay apart while the same words are taken in. -/
theorem foldl_mix_injective (pairs : List (UInt64 × UInt64)) :
    Function.Injective fun state => pairs.foldl mix state := by
  induction pairs with
  | nil => exact Function.injective_id
  | cons ab pairs ih => exact ih.comp (mix_injective ab)

/-- From one state, words that differ in one place lead to different states. -/
theorem foldl_mix_ne {pairs pairs' : List (UInt64 × UInt64)}
    (hlen : pairs.length = pairs'.length) (h : OneApart (inTurn pairs) (inTurn pairs'))
    (state : UInt64) : pairs.foldl mix state ≠ pairs'.foldl mix state := by
  induction pairs generalizing pairs' state with
  | nil =>
    obtain rfl := List.length_eq_zero_iff.mp hlen.symm
    obtain ⟨i, hi, -⟩ := h
    exact absurd rfl hi
  | cons ab pairs ih =>
    obtain ⟨cd, pairs', rfl⟩ := List.exists_cons_of_length_eq_add_one hlen.symm
    obtain ⟨a, b⟩ := ab
    obtain ⟨c, d⟩ := cd
    rw [inTurn_cons, inTurn_cons] at h
    rw [List.foldl_cons, List.foldl_cons]
    -- Behind the words that differ all are the same, and before them nothing has come apart.
    obtain ⟨hac, hrest⟩ | ⟨rfl, hsecond⟩ := h.cons_cases
    · obtain ⟨rfl, hpairs⟩ := List.cons.inj hrest
      obtain rfl := inTurn_injective hpairs
      exact (foldl_mix_injective pairs).ne ((mix_first_injective state b).ne hac)
    · obtain ⟨hbd, hpairs⟩ | ⟨rfl, hpairs⟩ := hsecond.cons_cases
      · obtain rfl := inTurn_injective hpairs
        exact (foldl_mix_injective pairs).ne ((mix_second_injective state a).ne hbd)
      · exact ih (Nat.succ.inj hlen) hpairs (mix state (a, b))

/-- Keys of one length whose words differ in one place have different hashes. -/
theorem hash_ne_of_oneApart (hlen : xs.length = ys.length)
    (h : OneApart (sequence xs) (sequence ys)) : hash xs ≠ hash ys := by
  intro hhash
  have hstates := scramble_injective hhash
  rw [hlen] at hstates
  refine foldl_mix_ne ?_ h _ hstates
  rw [words, words, List.length_map, List.length_map, hlen]

/-- Keys of one length that differ, but all of whose words except one are the same. -/
theorem hash_ne_of_agree (hlen : xs.length = ys.length) (hne : xs ≠ ys) {j : Nat}
    (h : ∀ i, i ≠ j → (sequence xs)[i]? = (sequence ys)[i]?) : hash xs ≠ hash ys :=
  hash_ne_of_oneApart hlen (.of_ne (mt (sequence_eq_iff hlen).mp hne) h)

/-! ## §6 Keys whose words are disjoint -/

/-- Up to three bytes stand in one word, and the other one is zero. -/
theorem sequence_of_length_le (h : bs.length ≤ 3) : ∃ a, sequence bs = [a, 0] := by
  have hwords : ∃ ps, words bs = [(pack bs ps, 0)] := by
    unfold words loads
    split_ifs
    · exact ⟨[], rfl⟩
    · exact ⟨_, rfl⟩
    · omega
    · omega
  obtain ⟨ps, hwords⟩ := hwords
  refine ⟨pack bs ps, ?_⟩
  rw [sequence, hwords]
  rfl

theorem inTurn_map_range (f : Nat → UInt64) (k : Nat) :
    inTurn ((List.range k).map fun i => (f (2 * i), f (2 * i + 1))) =
      (List.range (2 * k)).map f := by
  induction k with
  | zero => rfl
  | succ k ih =>
    rw [Nat.mul_succ, List.range_succ, List.range_succ, List.range_succ, List.map_append,
      List.map_append, List.map_append, ← ih, inTurn, List.flatMap_append, List.append_assoc]
    rfl

/-- Whole blocks are read word by word, and the last block is no exception. -/
theorem sequence_of_dvd (h : 16 ∣ bs.length) (hne : bs ≠ []) :
    sequence bs = (List.range (bs.length / 8)).map fun i => pack bs (span (8 * i) 8) := by
  obtain ⟨k, hk⟩ : ∃ k, bs.length = 16 * (k + 1) := by
    have hpos := List.length_pos_iff.mpr hne
    exact ⟨bs.length / 16 - 1, by omega⟩
  -- The last sixteen bytes are the block that the loop leaves.
  have hloads : loads bs.length =
      (List.range (k + 1)).map fun i => (span (16 * i) 8, span (16 * i + 8) 8) := by
    rw [loads_eq_loadsFrom (by omega), loadsFrom_eq, List.range_succ, List.map_append]
    have hblocks : (bs.length - 0 - 1) / 16 = k := by omega
    have hfirst : bs.length - min bs.length 16 = 16 * k := by omega
    have hsecond : bs.length - 8 = 16 * k + 8 := by omega
    rw [hblocks, hfirst, hsecond]
    simp only [Nat.zero_add]
    rfl
  have hcount : bs.length / 8 = 2 * (k + 1) := by omega
  rw [sequence, words, hloads, hcount, ← inTurn_map_range, List.map_map]
  refine congrArg inTurn (List.map_congr_left fun i _ => ?_)
  have hodd : 8 * (2 * i + 1) = 16 * i + 8 := by omega
  have heven : 8 * (2 * i) = 16 * i := by omega
  rw [hodd, heven]
  rfl

/-- Bytes of one aligned word are read with that word only, where the length is a multiple of
sixteen. -/
theorem sequence_agree_of_dvd (hlen : xs.length = ys.length) (hdvd : 16 ∣ xs.length)
    (hne : xs ≠ []) {j : Nat} (h : ∀ i, i / 8 ≠ j → xs[i]? = ys[i]?) (hi : i ≠ j) :
    (sequence xs)[i]? = (sequence ys)[i]? := by
  have hne' : ys ≠ [] := by
    rintro rfl
    exact hne (List.length_eq_zero_iff.mp hlen)
  rw [sequence_of_dvd hdvd hne, sequence_of_dvd (hlen ▸ hdvd) hne', hlen, List.getElem?_map,
    List.getElem?_map]
  -- A word at another place is packed from bytes of another aligned word.
  by_cases hrange : i < ys.length / 8
  · rw [List.getElem?_range hrange]
    refine congrArg some ((pack_eq_iff (length_span _ 8).le).mpr fun p hp => ?_)
    have hplace := mem_span_iff.mp hp
    rw [List.getD_eq_getElem?_getD, List.getD_eq_getElem?_getD, h p (by omega)]
  · have hnone : (List.range (ys.length / 8))[i]? = none := by
      rw [List.getElem?_eq_none_iff, List.length_range]
      omega
    rw [hnone, Option.map_none, Option.map_none]

/-! ## §7 Keys and their hashes -/

/-- The hash of a key reads every byte of it and nothing else, so the words tell apart all keys of
one length. Keys of one length whose words differ in exactly one place have different hashes. This
holds of keys of up to three bytes whenever they differ, and of keys of a multiple of sixteen bytes
when they differ inside of one aligned word. -/
theorem hash_separates :
    (∀ n i, i ∈ positions n ↔ i < n) ∧
      ∀ xs ys : Bytes, xs.length = ys.length →
        (xs ≠ ys → sequence xs ≠ sequence ys) ∧
        (OneApart (sequence xs) (sequence ys) → hash xs ≠ hash ys) ∧
        (xs ≠ ys → xs.length ≤ 3 → hash xs ≠ hash ys) ∧
        (xs ≠ ys → 16 ∣ xs.length → ∀ j, (∀ i, i / 8 ≠ j → xs[i]? = ys[i]?) →
          hash xs ≠ hash ys) := by
  refine ⟨fun _ _ => mem_positions_iff, fun xs ys hlen => ⟨mt (sequence_eq_iff hlen).mp,
    hash_ne_of_oneApart hlen, fun hne hshort => ?_, fun hne hdvd j h => ?_⟩⟩
  · refine hash_ne_of_agree hlen hne (j := 0) fun i hi => ?_
    obtain ⟨a, ha⟩ := sequence_of_length_le hshort
    obtain ⟨b, hb⟩ := sequence_of_length_le (hlen ▸ hshort)
    obtain ⟨k, rfl⟩ := Nat.exists_eq_succ_of_ne_zero hi
    rw [ha, hb]
    rfl
  · have hxs : xs ≠ [] := by
      rintro rfl
      exact hne (List.length_eq_zero_iff.mp hlen.symm).symm
    exact hash_ne_of_agree hlen hne fun i hi => sequence_agree_of_dvd hlen hdvd hxs h hi

/-- The last of twenty bytes stands in the last of four words that overlap, eight bytes stand in the
third word of two blocks, and two bytes change places. -/
theorem hash_separates_lastByte :
    let xs := Bytes.ofAscii "abcdefghijklmnopqrst"
    let ys := Bytes.ofAscii "abcdefghijklmnopqrs?"
    let vs := Bytes.ofAscii "0123456789abcdef01234567........"
    let ws := Bytes.ofAscii "0123456789abcdefABCDEFGH........"
    (xs.length = ys.length ∧ xs ≠ ys ∧ OneApart (sequence xs) (sequence ys)) ∧
      sequence xs ≠ sequence ys ∧ hash xs ≠ hash ys ∧
      (vs.length = ws.length ∧ vs ≠ ws ∧ 16 ∣ vs.length ∧ ∀ i, i / 8 ≠ 2 → vs[i]? = ws[i]?) ∧
      hash vs ≠ hash ws ∧
      hash (Bytes.ofAscii "ab") ≠ hash (Bytes.ofAscii "ba") := by
  intro xs ys vs ws
  have hlen : xs.length = ys.length := by decide
  have hne : xs ≠ ys := by decide
  have hwords : (sequence xs).length = 4 ∧ (sequence ys).length = 4 := by decide +kernel
  have hfirst : ∀ i < 3, (sequence xs)[i]? = (sequence ys)[i]? := by decide +kernel
  have hplace : OneApart (sequence xs) (sequence ys) := by
    refine .of_ne (by decide +kernel) (j := 3) fun i hi => ?_
    by_cases hrange : i < 3
    · exact hfirst i hrange
    · rw [List.getElem?_eq_none (by omega), List.getElem?_eq_none (by omega)]
  have hlen' : vs.length = ws.length := by decide
  have hne' : vs ≠ ws := by decide
  have hdvd : 16 ∣ vs.length := by decide
  have hfirst' : ∀ i < 32, i / 8 ≠ 2 → vs[i]? = ws[i]? := by decide
  have hword : ∀ i, i / 8 ≠ 2 → vs[i]? = ws[i]? := by
    intro i hi
    by_cases hrange : i < 32
    · exact hfirst' i hrange hi
    · have hvs : vs.length = 32 := by decide
      rw [List.getElem?_eq_none (by omega), List.getElem?_eq_none (by omega)]
  obtain ⟨htold, hone, -, -⟩ := hash_separates.2 xs ys hlen
  obtain ⟨-, -, -, haligned⟩ := hash_separates.2 vs ws hlen'
  obtain ⟨-, -, hshort, -⟩ :=
    hash_separates.2 (Bytes.ofAscii "ab") (Bytes.ofAscii "ba") (by decide)
  exact ⟨⟨hlen, hne, hplace⟩, htold hne, hone hplace, ⟨hlen', hne', hdvd, hword⟩,
    haligned hne' hdvd 2 hword, hshort (by decide) (by decide)⟩

end JsonTree.Hash
