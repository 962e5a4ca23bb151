import SpeechTranscript.Proofs.Text.Cap

/-!
# Cutting a text

A text that fits is kept. Of any other as much is kept as leaves room for the ending, which is
written in full. So the text that is left has exactly as many characters as it may, unless the
ending alone has more: then nothing of the text is kept, and the ending is what is left.

* `truncate_truncate`: of two cuts with one ending only the shorter counts.
* `cut_truncate`: what cutting makes of a text.
-/

namespace SpeechTranscript.Text

section Truncate

variable {t u : Text} {most other : ℕ} {ending : String}

theorem eq_of_chars_eq (hchars : t.chars = u.chars) (hfinal : t.isFinal = u.isFinal) : t = u := by
  obtain ⟨content, isFinal⟩ := t
  obtain ⟨content', isFinal'⟩ := u
  obtain rfl : content = content' := String.toList_inj.1 hchars
  obtain rfl : isFinal = isFinal' := hfinal
  rfl

theorem truncate_of_le (h : t.charCount ≤ most) : t.truncate most ending = t := if_pos h

/-- A text beyond it is cut where the ending still fits, and the ending follows. If the ending is
longer than the limit it is all that is left. -/
theorem chars_truncate (h : most < t.charCount) :
    (t.truncate most ending).chars = t.chars.take (most - ending.length) ++ ending.toList := by
  rw [truncate, if_neg h.not_ge]
  show (String.ofList (t.chars.take (most - ending.length)) ++ ending).toList = _
  rw [String.toList_append, String.toList_ofList]

theorem isFinal_truncate : (t.truncate most ending).isFinal = t.isFinal := by
  unfold truncate
  split <;> rfl

/-- Of two cuts with one ending only the shorter counts, whichever comes first. -/
theorem truncate_truncate :
    (t.truncate most ending).truncate other ending = t.truncate (min most other) ending := by
  rcases le_or_gt t.charCount most with hfits | hlong
  · -- the first cut leaves the text as it is
    rw [truncate_of_le hfits]
    rcases le_total other most with hless | hmore
    · rw [min_eq_right hless]
    · rw [min_eq_left hmore, truncate_of_le hfits, truncate_of_le (hfits.trans hmore)]
  have hcount := charCount_truncate t most ending
  rw [if_neg hlong.not_ge] at hcount
  rcases le_or_gt (max most ending.length) other with hroom | hcut
  · -- the second cut leaves what the first one made
    rw [truncate_of_le (hcount.trans_le hroom), min_eq_left ((le_max_left _ _).trans hroom)]
  · refine eq_of_chars_eq ?_ (by rw [isFinal_truncate, isFinal_truncate, isFinal_truncate])
    -- what the second cut keeps was all kept by the first one
    have hkept : other - ending.length ≤ (t.chars.take (most - ending.length)).length := by
      rw [List.length_take, length_chars]
      omega
    rw [chars_truncate (hcount ▸ hcut), chars_truncate hlong,
      chars_truncate ((min_le_left _ _).trans_lt hlong), List.take_append_of_le_length hkept,
      List.take_take]
    congr 2
    omega

/-- What is left of a text that is cut to some length with an ending. -/
structure Cut (t : Text) (most : ℕ) (ending : String) (cut : Text) : Prop where
  /-- It is too long only if the text did not fit and the ending alone is too long. -/
  charCount_le_iff : cut.charCount ≤ most ↔ (most < t.charCount → ending.length ≤ most)
  /-- It is the text, or as much of its front as leaves room for the ending, and the ending. -/
  made : t.charCount ≤ most ∧ cut = t ∨ most < t.charCount ∧ ∃ front, front <+: t.chars ∧
    front.length = most - ending.length ∧ cut.chars = front ++ ending.toList
  isFinal_eq : cut.isFinal = t.isFinal
  again : cut.truncate most ending = cut

/-- Cutting keeps to the length unless the ending alone is longer, and it is done once for all. -/
theorem cut_truncate (t : Text) (most : ℕ) (ending : String) :
    Cut t most ending (t.truncate most ending) where
  charCount_le_iff := by
    rw [charCount_truncate]
    split <;> omega
  made := by
    -- a text that fits is left alone, a longer one is cut
    rcases le_or_gt t.charCount most with hfits | hlong
    · exact .inl ⟨hfits, truncate_of_le hfits⟩
    · refine .inr ⟨hlong, _, List.take_prefix _ _, ?_, chars_truncate hlong⟩
      rw [List.length_take, length_chars]
      omega
  isFinal_eq := isFinal_truncate
  again := by rw [truncate_truncate, min_self]

/-- An ending of three characters where there is room for two. -/
theorem not_charCount_le_longEnding :
    ¬ (truncate ⟨"hello", true⟩ 2 "...").charCount ≤ 2 := by decide

end Truncate

end SpeechTranscript.Text
