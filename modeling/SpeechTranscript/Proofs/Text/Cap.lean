import SpeechTranscript.Proofs.Text.Formatting

/-!
# The cap on the length of a text

A text has at most a million characters when it is built, and when something is put at its end. Two
operations do without the check: cutting a text writes the ending in full, however long it is, and
the rules for final text give capitals, some of which are several characters. Apart from the
capitals a text does not grow when it is formatted.

* `charCount_formatted`, `length_layout_le`: the length of a formatted text.
* `capped_edited_iff`: when the text that an operation makes keeps to the cap.
* `capped_along_iff`: the same for operations one after the other.
-/

namespace SpeechTranscript.Text

/-! ## Lengths of joined parts -/

section Intercalate

variable {α : Type} {separator other : List α} {parts more : List (List α)}

/-- Joined parts are as long as they are together, with a separator between any two. -/
theorem length_intercalate (separator : List α) (parts : List (List α)) :
    (separator.intercalate parts).length =
      (parts.map List.length).sum + (parts.length - 1) * separator.length := by
  -- each part but the first brings a separator
  induction parts with
  | nil => simp
  | cons first rest ih =>
    cases rest with
    | nil => simp
    | cons second rest =>
      have hcount : (first :: second :: rest).length - 1 = (second :: rest).length - 1 + 1 := rfl
      have hsum : ((first :: second :: rest).map List.length).sum =
          first.length + ((second :: rest).map List.length).sum := List.sum_cons
      rw [List.intercalate_cons_cons, List.length_append, List.length_append, ih, hcount, hsum,
        Nat.add_one_mul]
      omega

/-- Fewer and shorter parts with less between are shorter together. -/
theorem length_intercalate_le (hseparator : separator.length ≤ other.length)
    (hsum : (parts.map List.length).sum ≤ (more.map List.length).sum)
    (hlength : parts.length ≤ more.length) :
    (separator.intercalate parts).length ≤ (other.intercalate more).length := by
  rw [length_intercalate, length_intercalate]
  exact add_le_add hsum (Nat.mul_le_mul (Nat.sub_le_sub_right hlength 1) hseparator)

end Intercalate

/-! ## The length of a formatted text -/

theorem length_chars (t : Text) : t.chars.length = t.charCount := String.length_toList

section Words

variable {opens : Bool} {parts : List (List Char)}

/-- The pieces between blanks, with a space for each blank, are as long as the text. -/
theorem length_intercalate_splitWhere (cs : List Char) :
    ([' '].intercalate (splitWhere isBlank cs)).length = cs.length := by
  rw [length_intercalate, ← List.length_flatten, flatten_splitWhere, length_splitWhere,
    Nat.add_sub_cancel, List.length_singleton, Nat.mul_one, ← List.countP_eq_length_filter,
    Nat.add_comm, List.length_eq_countP_add_countP isBlank]
  congr 2
  funext c
  simp

/-- The words with single spaces between are no longer than the text. -/
theorem length_intercalate_words_le (cs : List Char) :
    ([' '].intercalate (words cs)).length ≤ cs.length := by
  have hsub : (words cs).Sublist (splitWhere isBlank cs) := List.filter_sublist
  refine (length_intercalate_le le_rfl ?_ hsub.length_le).trans_eq
    (length_intercalate_splitWhere cs)
  exact (hsub.map List.length).sum_le_sum fun _ _ => Nat.zero_le _

/-- The text as formatting lays it out, before it gives capitals. -/
def layout (t : Text) : List Char :=
  ['\n', '\n'].intercalate (t.paragraphs.map ([' '].intercalate ·))

/-- Laying out a text does not make it longer. -/
theorem length_layout_le (t : Text) : t.layout.length ≤ t.charCount := by
  have hcommand : paragraphCommand ≠ [] := by decide
  have hsub : t.paragraphs.Sublist ((splitAt paragraphCommand t.chars).map words) :=
    List.filter_sublist
  -- paragraphs that are left out, and spaces between words, only make it shorter
  have hsum : ((t.paragraphs.map ([' '].intercalate ·)).map List.length).sum ≤
      ((splitAt paragraphCommand t.chars).map List.length).sum := by
    have hkept := ((hsub.map ([' '].intercalate ·)).map List.length).sum_le_sum
      fun _ _ => Nat.zero_le _
    refine hkept.trans ?_
    rw [List.map_map, List.map_map]
    exact List.sum_le_sum fun piece _ => length_intercalate_words_le piece
  have hlength : (t.paragraphs.map ([' '].intercalate ·)).length ≤
      (splitAt paragraphCommand t.chars).length := by
    rw [List.length_map, ← List.length_map words]
    exact hsub.length_le
  calc t.layout.length
      ≤ (paragraphCommand.intercalate (splitAt paragraphCommand t.chars)).length :=
        length_intercalate_le (by decide) hsum hlength
    _ = t.chars.length := by rw [intercalate_splitAt hcommand]
    _ = t.charCount := t.length_chars

/-- How many characters the capitals of some words take more than the letters they stand for. -/
def capitalGrowth (opens : Bool) : List (List Char) → ℕ
  | [] => 0
  | word :: rest =>
    (if opens then (capitalized word).length - word.length else 0) +
      capitalGrowth (endsSentence word) rest

/-- How many characters a text gets by the capitals of its sentences. -/
def growth (t : Text) : ℕ := (t.paragraphs.map (capitalGrowth true)).sum

/-- A capital letter takes the place of a letter, or several do. -/
theorem length_le_capitalized (word : List Char) : word.length ≤ (capitalized word).length := by
  cases word with
  | nil => exact le_rfl
  | cons c cs =>
    have hupper := List.length_pos_iff.2 (upper_ne_nil c)
    rw [capitalized, List.length_append, List.length_cons]
    omega

theorem length_withCapitals : (withCapitals opens parts).length = parts.length := by
  induction parts generalizing opens with
  | nil => rfl
  | cons word rest ih => rw [withCapitals, List.length_cons, ih, List.length_cons]

/-- The parts grow by what their capitals take. -/
theorem sum_length_withCapitals :
    ((withCapitals opens parts).map List.length).sum =
      (parts.map List.length).sum + capitalGrowth opens parts := by
  induction parts generalizing opens with
  | nil => rfl
  | cons word rest ih =>
    have hle := length_le_capitalized word
    rw [withCapitals, capitalGrowth, List.map_cons, List.sum_cons, ih, List.map_cons, List.sum_cons]
    cases opens
    · rw [if_neg Bool.false_ne_true, if_neg Bool.false_ne_true]
      omega
    · rw [if_pos rfl, if_pos rfl]
      omega

/-- A formatted text is as long as its layout and what the capitals add. -/
theorem charCount_formatted (t : Text) :
    t.formatted.charCount = t.layout.length + t.growth := by
  have hparagraph (parts : List (List Char)) :
      ([' '].intercalate (withCapitals true parts)).length =
        ([' '].intercalate parts).length + capitalGrowth true parts := by
    rw [length_intercalate, length_intercalate, sum_length_withCapitals, length_withCapitals]
    omega
  rw [← length_chars, chars_formatted, layout, length_intercalate, length_intercalate, List.map_map,
    List.map_map, List.length_map, List.length_map, growth]
  simp only [Function.comp_def, hparagraph, List.sum_map_add]
  omega

end Words

/-! ## A single word -/

/-- A text that is a single word is only given a capital. -/
theorem charCount_formatted_of_isWord {t : Text} (h : IsWord t.chars) (hplain : 'N' ∉ t.chars) :
    t.formatted.charCount = (capitalized t.chars).length := by
  -- the command for a new paragraph has capitals that the word lacks
  have hpiece : splitAt paragraphCommand t.chars = [t.chars] :=
    splitAtFrom_of_lacks fun h => hplain (h.subset (by decide))
  have hword : words t.chars = [t.chars] := by
    rw [words, splitWhere_of_forall h.2, List.filter_cons_of_pos (by simpa using h.1)]
    rfl
  have hparagraphs : t.paragraphs = [[t.chars]] := by
    rw [paragraphs, hpiece, List.map_singleton, hword]
    rfl
  have hle := length_le_capitalized t.chars
  have hgrowth : t.growth = (capitalized t.chars).length - t.chars.length := by
    rw [growth, hparagraphs]
    rfl
  rw [charCount_formatted, layout, hgrowth, hparagraphs, List.map_singleton,
    List.intercalate_singleton, List.intercalate_singleton]
  omega

/-! ## Operations on texts -/

/-- An operation that makes one text of another. -/
inductive Edit where
  | asFinal
  | asInterim
  | append (more : String)
  | truncate (most : ℕ) (ending : String)
  | format

/-- The text after an operation. One that is refused leaves it as it is. -/
def edited (t : Text) : Edit → Text
  | .asFinal => t.asFinal
  | .asInterim => t.asInterim
  | .append more => (t.append more).toOption.getD t
  | .truncate most ending => t.truncate most ending
  | .format => t.formatted

/-- A text as long as checked construction lets it be. -/
def Capped (t : Text) : Prop := t.charCount ≤ longestText

instance (t : Text) : Decidable t.Capped := inferInstanceAs (Decidable (_ ≤ _))

/-- What is needed for an operation to keep to the cap: an ending that keeps to it itself, if the
text is cut, and room for the capitals. -/
def Fits (t : Text) : Edit → Prop
  | .asFinal | .asInterim | .append _ => True
  | .truncate most ending => most < t.charCount → ending.length ≤ longestText
  | .format => t.layout.length + t.growth ≤ longestText

/-- Every operation of some fits the text that it is made on. -/
def FitsAlong (t : Text) : List Edit → Prop
  | [] => True
  | edit :: rest => t.Fits edit ∧ (t.edited edit).FitsAlong rest

instance (t : Text) (edit : Edit) : Decidable (t.Fits edit) :=
  match edit with
  | .asFinal | .asInterim | .append _ => inferInstanceAs (Decidable True)
  | .truncate most ending =>
    inferInstanceAs (Decidable (most < t.charCount → ending.length ≤ longestText))
  | .format => inferInstanceAs (Decidable (t.layout.length + t.growth ≤ longestText))

instance decidableFitsAlong (t : Text) : (edits : List Edit) → Decidable (t.FitsAlong edits)
  | [] => inferInstanceAs (Decidable True)
  | edit :: rest =>
    have := decidableFitsAlong (t.edited edit) rest
    inferInstanceAs (Decidable (t.Fits edit ∧ (t.edited edit).FitsAlong rest))

section Capped

variable {t : Text} {content : String} {isFinal : Bool}

/-- A text is made of what keeps to the limit. -/
theorem ofContent_eq_ok_iff :
    ofContent content isFinal = .ok t ↔ t = ⟨content, isFinal⟩ ∧ t.Capped := by
  unfold ofContent
  split
  · rename_i h
    constructor
    · intro heq
      cases heq
      exact ⟨rfl, h⟩
    · rintro ⟨rfl, -⟩
      rfl
  · rename_i h
    constructor
    · intro heq
      cases heq
    · rintro ⟨rfl, hcapped⟩
      exact absurd hcapped h

/-- Appending keeps to the limit, or is refused and changes nothing. -/
theorem capped_append (h : t.Capped) (more : String) :
    ((t.append more).toOption.getD t).Capped := by
  cases happend : t.append more with
  | ok u => exact (ofContent_eq_ok_iff.1 happend).2
  | error fault => exact h

/-- A text that is cut is as long as it may be, or as long as its ending. -/
theorem charCount_truncate (t : Text) (most : ℕ) (ending : String) :
    (t.truncate most ending).charCount =
      if t.charCount ≤ most then t.charCount else max most ending.length := by
  unfold truncate
  split
  · rfl
  · rename_i hlong
    show (String.ofList (t.chars.take (most - ending.length)) ++ ending).length = _
    rw [String.length_append, String.length_ofList, List.length_take, length_chars]
    omega

/-- What an operation makes of a text keeps to the cap exactly if the operation fits it. -/
theorem capped_edited_iff (h : t.Capped) (edit : Edit) : (t.edited edit).Capped ↔ t.Fits edit := by
  cases edit with
  | asFinal => exact iff_of_true h trivial
  | asInterim => exact iff_of_true h trivial
  | append more => exact iff_of_true (capped_append h more) trivial
  | truncate most ending =>
    change (t.truncate most ending).charCount ≤ longestText ↔
      (most < t.charCount → ending.length ≤ longestText)
    change t.charCount ≤ longestText at h
    rw [charCount_truncate]
    split <;> omega
  | format =>
    change t.formatted.charCount ≤ longestText ↔ t.layout.length + t.growth ≤ longestText
    rw [charCount_formatted]

/-- All texts along some operations keep to the cap exactly if each operation fits its text. -/
theorem capped_along_iff (h : t.Capped) (edits : List Edit) :
    (∀ u ∈ edits.scanl edited t, u.Capped) ↔ t.FitsAlong edits := by
  induction edits generalizing t with
  | nil => exact iff_of_true (List.forall_mem_singleton.2 h) trivial
  | cons edit rest ih =>
    rw [List.scanl_cons, List.forall_mem_cons, FitsAlong, ← capped_edited_iff h edit]
    constructor
    · rintro ⟨-, hrest⟩
      -- the text after the first operation is one of those along the way
      have hnext : (t.edited edit).Capped := by
        refine hrest _ ?_
        cases rest with
        | nil => exact List.mem_singleton_self _
        | cons next rest =>
          rw [List.scanl_cons]
          exact List.mem_cons_self
      exact ⟨hnext, (ih hnext).1 hrest⟩
    · rintro ⟨hnext, hrest⟩
      exact ⟨h, (ih hnext).2 hrest⟩

end Capped

end SpeechTranscript.Text
