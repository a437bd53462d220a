import JsonTree.Proofs.Decode.Tokens
import JsonTree.Proofs.Text.Characters
import JsonTree.Proofs.Text.Faults

/-!
# The strings of an input

The pass over the input ends a string at the first quote that no backslash protects, and looks at no
escape. The reader of a string takes the escapes apart, and goes by the grammar of contents alone:
what follows the string in the input does not matter to it, although it is given all of that.

## Main definitions

- `Token.ReadsBody`: the text of a string token and its faults, by the bytes between its quotes.

## Main statements

- `Token.readsBody_of_scan`: the string tokens of an input are read by the grammar.
-/

namespace JsonTree

open Grammar

namespace Token

variable {t : Token} {body : Bytes}

/-- A string token whose text and whose fault are told by the bytes between its quotes. -/
structure ReadsBody (t : Token) (body : Bytes) : Prop where
  text_eq : t.text = quoted body
  delimited : Body body
  /-- It is read exactly if the bytes are in the grammar, and then as what they denote. -/
  ok_iff : ∀ s, (∃ text, t.string = .ok text ∧ text.bytes = s) ↔ Contents body s
  /-- Otherwise the first bad escape is at fault. -/
  error_iff : ∀ fault, t.string = .error fault ↔
    ∃ k, FirstBadEscape body fault.cause k ∧ fault.offset = t.offset + 1 + k
  /-- Characters written as escapes are read back. -/
  chars : ∀ cs, CharEscapes cs body →
    ∃ text, t.string = .ok text ∧ text.bytes = cs.flatMap String.utf8EncodeChar

/-- A body between quotes is read by the grammar, whatever follows it. -/
theorem readsBody (hbody : Body body) (htext : t.text = quoted body) : t.ReadsBody body := by
  have hok : ∀ s, (∃ text, t.string = .ok text ∧ text.bytes = s) ↔ Contents body s := by
    intro s
    rw [string_of_quoted htext]
    exact Text.read_eq_ok_iff hbody (t.offset + 1) t.rest s
  refine ⟨htext, hbody, hok, fun fault => ?_, fun cs hcs => ?_⟩
  · rw [string_of_quoted htext]
    exact Text.read_eq_error_iff hbody (t.offset + 1) t.rest fault
  · exact (hok _).mpr (contents_of_charEscapes hcs)

/-- Contents of the grammar between quotes are an input of a single token. -/
theorem scan_quoted (hbody : Body body) :
    scan (quoted body) = .ok [⟨0, quoted body, []⟩] := by
  have hsplits : Splits 0 (quoted body ++ []) [⟨0, quoted body, []⟩] :=
    splits_piece (.string hbody) (.blank fun _ hb => absurd hb List.not_mem_nil)
  rw [List.append_nil] at hsplits
  exact (scan_eq_ok_iff _ _).mpr ⟨hsplits, List.cons_ne_nil _ _⟩

/-- Every string token of an input is read by the grammar of contents: as the text that its body
denotes, or with the fault of its first bad escape. Every list of characters is written by the
escapes in some string, and is what this string is read as. -/
theorem readsBody_of_scan :
    (∀ input ts, scan input = .ok ts → ∀ t ∈ ts, t.head = Byte.quote → ∃ body, t.ReadsBody body) ∧
      ∀ cs, ∃ body t, CharEscapes cs body ∧ scan (quoted body) = .ok [t] ∧ t.ReadsBody body := by
  constructor
  · intro input ts hscan t ht hquote
    have hpiece := ((scan_eq_ok_iff input ts).mp hscan).1.pieces t ht
    obtain ⟨body, htext, hbody⟩ := text_of_quote hpiece hquote
    exact ⟨body, readsBody hbody htext⟩
  · intro cs
    obtain ⟨body, hescapes⟩ := exists_charEscapes cs
    have hbody := body_of_contents (contents_of_charEscapes hescapes)
    exact ⟨body, _, hescapes, scan_quoted hbody, readsBody hbody rfl⟩

/-- An array of two strings: a pair of units with a short escape behind it, and a first unit that
another escape follows. -/
def surrogatesInput : Bytes := Bytes.ofAscii "[\"\\uD83d\\uDe00\\n\",\"a\\ud800\\n\"]"

/-- The one string is read, and the other one is refused at the backslash of its first escape. -/
theorem readsBody_of_scan_surrogates :
    ∃ ts body body' t t', scan surrogatesInput = .ok ts ∧
      (t ∈ ts ∧ t.ReadsBody body ∧ Contents body [0xF0, 0x9F, 0x98, 0x80, 0x0A]) ∧
      t' ∈ ts ∧ t'.ReadsBody body' ∧ FirstBadEscape body' .invalidUnicodeEscape 1 := by
  let t : Token := ⟨1, quoted (Bytes.ofAscii "\\uD83d\\uDe00\\n"), surrogatesInput.drop 17⟩
  let t' : Token := ⟨18, quoted (Bytes.ofAscii "a\\ud800\\n"), surrogatesInput.drop 29⟩
  have hscan : scan surrogatesInput = .ok [⟨0, Bytes.ofAscii "[", surrogatesInput.drop 1⟩, t,
    ⟨17, Bytes.ofAscii ",", surrogatesInput.drop 18⟩, t', ⟨29, Bytes.ofAscii "]", []⟩] := by
    decide +kernel
  have hread : t.string = .ok (.owned [0xF0, 0x9F, 0x98, 0x80, 0x0A]) := by decide +kernel
  have hrefused : t'.string = .error ⟨.invalidUnicodeEscape, 20⟩ := by decide +kernel
  obtain ⟨body, hbody⟩ := readsBody_of_scan.1 _ _ hscan t (by simp) rfl
  obtain ⟨body', hbody'⟩ := readsBody_of_scan.1 _ _ hscan t' (by simp) rfl
  obtain ⟨k, hbad, hk⟩ := (hbody'.error_iff _).mp hrefused
  obtain rfl : k = 1 := (Nat.add_left_cancel hk).symm
  exact ⟨_, body, body', t, t', hscan, ⟨by simp, hbody, (hbody.ok_iff _).mp ⟨_, hread, rfl⟩⟩,
    by simp, hbody', hbad⟩

end Token

end JsonTree
