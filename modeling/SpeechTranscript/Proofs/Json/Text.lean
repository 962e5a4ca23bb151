import SpeechTranscript.Json.Writer
import SpeechTranscript.Proofs.Json.Numeral

/-!
# Strings read back

Quotes, backslashes and control characters of a string are written as escapes, all others as they
are. Each is read as one character again.

* `readStringFrom_escape`: one character.
* `reads_string`: a quoted string after its opening quote.
-/

namespace SpeechTranscript.Json

section Strings

variable {whole done cs : List Char} {c : Char}

/-- An escape stands for its character. -/
theorem reads_escape_of_special (h : c = '"' ∨ c = '\\' ∨ c.toNat < 0x20) :
    ∃ body, escape c = '\\' :: body ∧ ∀ cs, Reads (readEscape (body ++ cs)) c cs := by
  rcases h with rfl | rfl | hcontrol
  · exact ⟨['"'], rfl, fun cs => ⟨_, rfl⟩⟩
  · exact ⟨['\\'], rfl, fun cs => ⟨_, rfl⟩⟩
  · have hc : c = Char.ofNat c.toNat := (Char.ofNat_toNat c).symm
    generalize c.toNat = n at *
    subst hc
    interval_cases n <;> exact ⟨_, rfl, fun cs => ⟨_, rfl⟩⟩

/-- An escaped character is read as that character. -/
theorem readStringFrom_escape (h : (escape c ++ cs).length ≤ whole.length)
    (h' : cs.length ≤ whole.length) :
    readStringFrom done (escape c ++ cs) h = readStringFrom (c :: done) cs h' := by
  by_cases hspecial : c = '"' ∨ c = '\\' ∨ c.toNat < 0x20
  · -- the escape is read as a whole, and its character is pushed
    obtain ⟨body, hbody, hreads⟩ := reads_escape_of_special hspecial
    obtain ⟨shorter, hread⟩ := hreads cs
    simp only [hbody, List.cons_append] at h ⊢
    rw [readStringFrom]
    split
    · rename_i fault herror
      rw [hread] at herror
      cases herror
    · rename_i escaped hok
      rw [hread] at hok
      cases hok
      rfl
  · obtain ⟨hquote, hspecial⟩ := not_or.1 hspecial
    obtain ⟨hbackslash, hcontrol⟩ := not_or.1 hspecial
    -- any other character stands for itself
    have hplain : escape c = [c] := by
      simp [escape, hquote, hbackslash, hcontrol]
    simp only [hplain, List.cons_append, List.nil_append] at h ⊢
    rw [readStringFrom]
    · rw [if_neg hcontrol]
    · exact hquote
    · exact hbackslash

/-- The characters of a string are read one after the other, up to the closing quote. -/
theorem reads_stringFrom (done s : List Char)
    (h : (s.flatMap escape ++ '"' :: cs).length ≤ whole.length) :
    Reads (readStringFrom done (s.flatMap escape ++ '"' :: cs) h)
      (String.ofList (done.reverse ++ s)) cs := by
  induction s generalizing done with
  | nil =>
    simp only [List.flatMap_nil, List.nil_append, List.append_nil] at h ⊢
    rw [readStringFrom]
    exact ⟨_, rfl⟩
  | cons c s ih =>
    simp only [List.flatMap_cons, List.append_assoc] at h ⊢
    have h' : (s.flatMap escape ++ '"' :: cs).length ≤ whole.length := by
      rw [List.length_append] at h
      omega
    rw [readStringFrom_escape h h']
    simpa using ih (c :: done) h'

/-- A quoted string is read back after its opening quote. -/
theorem reads_string (s : String) (cs : List Char) :
    Reads (readString (s.toList.flatMap escape ++ '"' :: cs)) s cs := by
  have h : Reads (readString (s.toList.flatMap escape ++ '"' :: cs))
      (String.ofList (List.reverse [] ++ s.toList)) cs := reads_stringFrom [] s.toList le_rfl
  rwa [List.reverse_nil, List.nil_append, String.ofList_toList] at h

end Strings

end SpeechTranscript.Json
