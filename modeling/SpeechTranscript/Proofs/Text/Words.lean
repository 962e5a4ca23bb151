import SpeechTranscript.Proofs.Text

/-!
# Words across a cut

A text that is cut at a blank has its words in the two pieces, and blanks around a piece do not
count. A cut inside a word gives two words for it, but loses no character.

* `words_append_blank`: the words before and after a blank.
* `words_trim`, `filter_trim`: trimming a text leaves its words and its characters.
* `words_take_drop`: a cut at a blank.
-/

namespace SpeechTranscript.Text

section Words

variable {front rest cs : List Char} {c : Char}

/-- A text is split at a separator into what is in front of it and what is behind it. -/
theorem splitWhere_append_cons {p : Char → Bool} (h : p c = true) (front rest : List Char) :
    splitWhere p (front ++ c :: rest) = splitWhere p front ++ splitWhere p rest := by
  induction front with
  | nil => rw [List.nil_append, splitWhere_cons_of_pos h, splitWhere_nil, List.singleton_append]
  | cons a front ih =>
    rw [List.cons_append]
    cases ha : p a with
    | true => rw [splitWhere_cons_of_pos ha, splitWhere_cons_of_pos ha, ih, List.cons_append]
    | false =>
      obtain ⟨piece, more, hpieces, hnext⟩ := @splitWhere_cons_of_neg p front a ha
      obtain ⟨piece', more', hpieces', hnext'⟩ :=
        @splitWhere_cons_of_neg p (front ++ c :: rest) a ha
      -- the first piece is the same with and without what comes after it
      rw [ih, hpieces, List.cons_append] at hpieces'
      cases hpieces'
      rw [hnext, hnext', List.cons_append]

/-- The words of a text are those before a blank and those after it. -/
theorem words_append_blank (h : isBlank c = true) (front rest : List Char) :
    words (front ++ c :: rest) = words front ++ words rest := by
  rw [words, splitWhere_append_cons h, List.filter_append]
  rfl

theorem words_cons_blank (h : isBlank c = true) (rest : List Char) :
    words (c :: rest) = words rest :=
  words_append_blank h [] rest

/-! ## Trimming -/

/-- Blanks in front are no words. -/
theorem words_trimStart (cs : List Char) : words (trimStart cs) = words cs := by
  induction cs with
  | nil => rfl
  | cons c cs ih =>
    rw [trimStart, List.dropWhile_cons]
    split
    · rename_i hblank
      rw [words_cons_blank hblank, ← ih]
      rfl
    · rfl

/-- Blanks behind are no words. -/
theorem words_trimEnd (cs : List Char) : words (trimEnd cs) = words cs := by
  induction cs using List.reverseRecOn with
  | nil => rfl
  | append_singleton front c ih =>
    rw [trimEnd, List.reverse_append, List.reverse_singleton, List.singleton_append,
      List.dropWhile_cons]
    split
    · rename_i hblank
      have hlast : words (front ++ [c]) = words front := by
        rw [words_append_blank hblank]
        exact List.append_nil _
      rw [hlast, ← ih]
      rfl
    · rw [← List.singleton_append, List.reverse_append, List.reverse_reverse,
        List.reverse_singleton]

/-- Blanks around a text make no difference to its words. -/
theorem words_trim (cs : List Char) : words (trim cs) = words cs := by
  rw [trim, words_trimEnd, words_trimStart]

/-- The words of a text hold all characters but the blanks. -/
theorem flatten_words (cs : List Char) : (words cs).flatten = cs.filter (!isBlank ·) := by
  rw [← flatten_splitWhere, words, List.flatten_filter_not_isEmpty]

/-- Trimming takes nothing but blanks, and adds nothing. -/
theorem filter_trim (cs : List Char) : (trim cs).filter (!isBlank ·) = cs.filter (!isBlank ·) := by
  rw [← flatten_words, ← flatten_words, words_trim]

/-- A trimmed text still has the last characters that are no blanks. -/
theorem length_le_trim_append (h : ∀ c ∈ rest, isBlank c = false) (front : List Char) :
    rest.length ≤ (trim (front ++ rest)).length := by
  have hkept : rest.filter (!isBlank ·) = rest := List.filter_eq_self.2 fun c hc => by
    rw [h c hc]
    rfl
  calc rest.length
      = (rest.filter (!isBlank ·)).length := by rw [hkept]
    _ ≤ ((front ++ rest).filter (!isBlank ·)).length := by
      rw [List.filter_append, List.length_append]
      exact Nat.le_add_left _ _
    _ = ((trim (front ++ rest)).filter (!isBlank ·)).length := by rw [filter_trim]
    _ ≤ (trim (front ++ rest)).length := List.length_filter_le _ _

/-- Trimming makes no text longer. -/
theorem length_trim_le (cs : List Char) : (trim cs).length ≤ cs.length := by
  have hstart := (List.dropWhile_sublist isBlank (l := cs)).length_le
  have hend := (List.dropWhile_sublist isBlank (l := (trimStart cs).reverse)).length_le
  rw [trim, trimEnd, List.length_reverse]
  rw [List.length_reverse] at hend
  exact hend.trans hstart

/-! ## Cutting -/

/-- A text that is cut at a blank keeps its words. -/
theorem words_take_drop {cut : ℕ} (h : cs[cut]? = some c) (hblank : isBlank c = true) :
    words (cs.take cut) ++ words (cs.drop cut) = words cs := by
  obtain ⟨hcut, hc⟩ := List.getElem?_eq_some_iff.1 h
  have hdrop : cs.drop cut = c :: cs.drop (cut + 1) := by
    rw [List.drop_eq_getElem_cons hcut, hc]
  rw [hdrop, words_cons_blank hblank, ← words_append_blank hblank, ← hdrop, List.take_append_drop]

end Words

end SpeechTranscript.Text
