import SpeechTranscript.Proofs.Export.Document
import SpeechTranscript.Proofs.Json.Bounds
import SpeechTranscript.Proofs.Json.Order

/-!
# Writing a value anew

A value goes from its text on one line, which is read, to a text over several lines. That text is
read as the same value, members in the order of their names, so writing it anew makes no difference.

* `reformat_eq_ok_iff`: when a text can be written anew, and as what.
* `reformat_again`: what is written anew once stays as it is.
* `reformatted_keeps`: the value is kept on the whole way.
-/

namespace SpeechTranscript.Encoder

open Json

variable {source text : String} {value : Json} {indent : ℕ}

/-- A text can be written anew exactly when it can be read. -/
theorem reformat_eq_ok_iff : reformat source indent = .ok text ↔
    ∃ value, read source.toList = .ok value ∧ text = value.canonical.pretty indent := by
  constructor
  · intro h
    obtain ⟨value, hread, h⟩ := bind_eq_ok_iff.1 h
    cases h
    exact ⟨value, hread, rfl⟩
  · rintro ⟨value, hread, rfl⟩
    rw [reformat, hread, ok_bind]
    rfl

/-- What is written over several lines is read in canonical form. -/
theorem read_pretty_canonical (indent : ℕ) (hfits : Fits deepest value) :
    read (value.canonical.pretty indent).toList = .ok value.canonical :=
  read_pretty indent (fits_canonical hfits)

theorem reformat_pretty (hfits : Fits deepest value) :
    reformat (value.canonical.pretty indent) indent = .ok (value.canonical.pretty indent) :=
  reformat_eq_ok_iff.2 ⟨_, read_pretty_canonical indent hfits, by
    rw [(ordered_canonical value).canonical_eq]⟩

theorem reformat_compact (hfits : Fits deepest value) :
    reformat value.canonical.compact indent = .ok (value.canonical.pretty indent) :=
  reformat_eq_ok_iff.2 ⟨_, read_compact (fits_canonical hfits), by
    rw [(ordered_canonical value).canonical_eq]⟩

/-- A text that was written anew stays as it is, whatever it was before. -/
theorem reformat_again (h : reformat source indent = .ok text) :
    reformat text indent = .ok text := by
  obtain ⟨value, hread, rfl⟩ := reformat_eq_ok_iff.1 h
  exact reformat_pretty (fits_of_read hread)

/-- Every value of finite numbers, integers of 64 bits and at most 127 levels is written on one line
and then over several. The result is read as the value in canonical form, which for a value with
members in order is the value itself, and does not change when it is written anew; nor does any
other text that was written over several lines. -/
theorem reformatted_keeps (indent : ℕ) :
    (∀ value, Fits deepest value → ∃ line text, standard.compact value = some line ∧
      reformat line indent = .ok text ∧ read text.toList = .ok value.canonical ∧
      (Ordered value → read text.toList = .ok value) ∧ reformat text indent = .ok text) ∧
    ∀ source text, reformat source indent = .ok text → reformat text indent = .ok text := by
  refine ⟨fun value hfits => ?_, fun source text => reformat_again⟩
  have hread := read_pretty_canonical indent hfits
  refine ⟨_, _, standard_compact value, reformat_compact hfits, hread, fun hordered => ?_,
    reformat_pretty hfits⟩
  rw [hread, hordered.canonical_eq]

/-- Numbers at the ends of their ranges, signed zeros, and strings that have to be escaped. -/
def samples : Json := .object [
  ("", .array []),
  ("\"\\/\x00\x1f\u007f\u2028🎙", .object []),
  ("a", .array [.integer 18446744073709551615, .integer (-9223372036854775808), .float 5e-324,
    .float 1.7976931348623157e308, .float 1e16, .float 1, .float (-0.0), .float 0.0,
    .float 0.30000000000000004]),
  ("b", .object [("\n", .null), ("ß", .array [.bool true, .bool false, .string "\t\x08 \\u"])])]

theorem reformatted_keeps_samples :
    ∃ line text, standard.compact samples = some line ∧ reformat line 3 = .ok text ∧
      read text.toList = .ok samples ∧ reformat text 3 = .ok text := by
  have hfits : Fits deepest samples := by
    simp [samples, Fits, deepest, UInt64.size]
    decide +kernel
  have hordered : Ordered samples := by
    have hcanonical : samples.canonical = samples := rfl
    exact hcanonical ▸ ordered_canonical samples
  obtain ⟨line, text, hline, htext, -, hread, hagain⟩ := (reformatted_keeps 3).1 samples hfits
  exact ⟨line, text, hline, htext, hread hordered, hagain⟩

end SpeechTranscript.Encoder
