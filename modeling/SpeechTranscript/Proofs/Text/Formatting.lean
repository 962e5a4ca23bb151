import SpeechTranscript.Proofs.Text.Phrases

/-!
# Formatting word by word

The rules for final text go through a paragraph character by character. What they make of it is told
by its words: they stand with single spaces between, and those that open a sentence have a capital.

* `formatParagraph_eq`: one paragraph.
* `chars_formatted`: the whole text.
* `formatted_wordwise`: the whole text by its pieces and the places of their words.
-/

namespace SpeechTranscript.Text

/-! ## Words -/

/-- Some characters without a blank. -/
def IsWord (word : List Char) : Prop := word ≠ [] ∧ ∀ c ∈ word, isBlank c = false

theorem isWord_of_mem_words {cs word : List Char} (h : word ∈ words cs) : IsWord word := by
  obtain ⟨hpiece, hsome⟩ := List.mem_filter.1 h
  exact ⟨by simpa using hsome, fun c hc => not_of_mem_splitWhere hpiece hc⟩

/-- A word with a capital. -/
def capitalized : List Char → List Char
  | [] => []
  | c :: cs => upper c ++ cs

/-- Whether a word is the last one of a sentence. -/
def endsSentence (word : List Char) : Bool := word.getLast?.any isTerminator

/-- The words of a paragraph, those with a capital that open a sentence. `opens` tells whether the
first one does. -/
def withCapitals (opens : Bool) : List (List Char) → List (List Char)
  | [] => []
  | word :: rest =>
    (if opens then capitalized word else word) :: withCapitals (endsSentence word) rest

/-! ## Paragraphs -/

section Paragraph

variable {capital ended : Bool} {done rest cs word : List Char} {parts : List (List Char)}

/-- Characters that are not the first of a word are copied. -/
theorem capitalizeFrom_append (h : ∀ c ∈ cs, c ≠ ' ') :
    capitalizeFrom false ended done (cs ++ rest) =
      capitalizeFrom false (cs.getLast?.elim ended isTerminator) (cs.reverse ++ done) rest := by
  induction cs generalizing ended done with
  | nil => rfl
  | cons c cs ih =>
    obtain ⟨hc, hcs⟩ := List.forall_mem_cons.1 h
    have hother : (c == ' ' && ended) = false := by simp [hc]
    rw [List.cons_append, capitalizeFrom, hother, if_neg Bool.false_ne_true, ih hcs,
      List.getLast?_cons, List.reverse_cons, List.append_assoc]
    cases cs.getLast? <;> rfl

/-- A whole word is copied, with a capital if one is due, and its end decides about the next. -/
theorem capitalizeFrom_word (h : IsWord word) :
    capitalizeFrom capital ended done (word ++ rest) =
      capitalizeFrom false (endsSentence word)
        ((if capital then capitalized word else word).reverse ++ done) rest := by
  obtain ⟨hsome, hword⟩ := h
  obtain ⟨c, cs, rfl⟩ := List.exists_cons_of_ne_nil hsome
  have hspaces : ∀ d ∈ c :: cs, d ≠ ' ' := by
    rintro d hd rfl
    exact absurd (hword ' ' hd) (by decide)
  obtain ⟨hc, hcs⟩ := List.forall_mem_cons.1 hspaces
  have hother : (c == ' ' && ended) = false := by simp [hc]
  -- the last character of the word is what the automaton remembers
  have hends : cs.getLast?.elim (isTerminator c) isTerminator = endsSentence (c :: cs) := by
    rw [endsSentence, List.getLast?_cons]
    cases cs.getLast? <;> rfl
  rw [List.cons_append, capitalizeFrom, hother, capitalizeFrom_append hcs, hends]
  cases capital
  · rw [if_neg Bool.false_ne_true, if_neg Bool.false_ne_true, List.reverse_cons, List.append_assoc]
    rfl
  · rw [if_pos rfl, if_pos rfl, capitalized, List.reverse_append, List.append_assoc]

/-- Words with single spaces between are copied word by word. -/
theorem capitalizeFrom_intercalate (h : ∀ word ∈ parts, IsWord word) :
    capitalizeFrom capital ended done ([' '].intercalate parts) =
      done.reverse ++ [' '].intercalate (withCapitals capital parts) := by
  induction parts generalizing capital ended done with
  | nil => exact (List.append_nil _).symm
  | cons word parts ih =>
    obtain ⟨hword, hparts⟩ := List.forall_mem_cons.1 h
    cases parts with
    | nil =>
      have hcopy : capitalizeFrom capital ended done (word ++ []) = _ := capitalizeFrom_word hword
      rw [List.append_nil] at hcopy
      rw [List.intercalate_singleton, hcopy, withCapitals, withCapitals, List.intercalate_singleton,
        capitalizeFrom, List.reverse_append, List.reverse_reverse]
    | cons next parts =>
      -- a capital is due behind the space only if the word has ended a sentence
      have hspace : (' ' == ' ' && endsSentence word) = endsSentence word := Bool.true_and _
      have hfirst : withCapitals capital (word :: next :: parts) =
          (if capital then capitalized word else word) ::
            withCapitals (endsSentence word) (next :: parts) := rfl
      have hrest : withCapitals (endsSentence word) (next :: parts) ≠ [] := List.cons_ne_nil _ _
      rw [List.intercalate_cons_cons, List.append_assoc, capitalizeFrom_word hword,
        List.singleton_append, capitalizeFrom, hspace, if_neg Bool.false_ne_true, ih hparts, hfirst,
        List.intercalate_cons_of_ne_nil hrest]
      simp only [List.reverse_cons, List.reverse_append, List.reverse_reverse, List.append_assoc]

/-- A paragraph is its words, those that open a sentence with a capital. -/
theorem formatParagraph_eq (cs : List Char) :
    formatParagraph cs = [' '].intercalate (withCapitals true (words cs)) :=
  capitalizeFrom_intercalate fun _ hword => isWord_of_mem_words hword

end Paragraph

/-! ## The whole text -/

/-- Every character has an upper-case form. -/
theorem upper_ne_nil (c : Char) : upper c ≠ [] := by
  have hforms : ∀ entry ∈ caseExpansions, entry.2 ≠ [] := by decide
  unfold upper
  dsimp only
  split
  · exact List.cons_ne_nil _ _
  · split
    · exact List.cons_ne_nil _ _
    · split
      · rename_i form hform
        obtain ⟨front, back, hentry, -⟩ := List.lookup_eq_some_iff.1 hform
        have hmem : (c.toNat, form) ∈ caseExpansions := by
          rw [hentry]
          exact List.mem_append_right _ List.mem_cons_self
        exact fun hnil => hforms _ hmem (List.map_eq_nil_iff.1 hnil)
      · exact List.cons_ne_nil _ _

/-- The words of the paragraphs that have any. -/
def paragraphs (t : Text) : List (List (List Char)) :=
  ((splitAt paragraphCommand t.chars).map words).filter (!·.isEmpty)

/-- What is left of a piece without words is no paragraph. -/
theorem isEmpty_formatParagraph (cs : List Char) :
    (formatParagraph cs).isEmpty = (words cs).isEmpty := by
  rw [formatParagraph_eq]
  cases hwords : words cs with
  | nil => rfl
  | cons word rest =>
    obtain ⟨hsome, -⟩ := isWord_of_mem_words (hwords ▸ List.mem_cons_self : word ∈ words cs)
    obtain ⟨c, tail, rfl⟩ := List.exists_cons_of_ne_nil hsome
    obtain ⟨d, more, hupper⟩ := List.exists_cons_of_ne_nil (upper_ne_nil c)
    rw [withCapitals, if_pos rfl, capitalized, hupper]
    cases withCapitals (endsSentence (c :: tail)) rest <;> rfl

/-- A formatted text is its paragraphs with a blank line between. -/
theorem chars_formatted (t : Text) :
    t.formatted.chars = ['\n', '\n'].intercalate
      (t.paragraphs.map fun parts => [' '].intercalate (withCapitals true parts)) := by
  -- paragraphs are left out by their words and not by how they are written
  have hfilter : (fun cs => !(formatParagraph cs).isEmpty) = fun cs => !(words cs).isEmpty :=
    funext fun cs => by rw [isEmpty_formatParagraph]
  have hparagraph : formatParagraph =
      fun cs => [' '].intercalate (withCapitals true (words cs)) := funext formatParagraph_eq
  show (String.ofList (['\n', '\n'].intercalate
    (((splitAt paragraphCommand t.chars).map formatParagraph).filter (!·.isEmpty)))).toList = _
  rw [String.toList_ofList, paragraphs, List.filter_map, List.filter_map, List.map_map]
  show ['\n', '\n'].intercalate (List.map formatParagraph
    (List.filter (fun cs => !(formatParagraph cs).isEmpty) _)) = _
  rw [hfilter, hparagraph]
  rfl

/-! ## By the places of the words -/

/-- Whether the word at an index opens a sentence: the first word does, and so does each one after
the end of a sentence. -/
def opensSentence (parts : List (List Char)) : ℕ → Bool
  | 0 => true
  | i + 1 => parts[i]?.any endsSentence

/-- A piece as a paragraph: its words with single spaces between, those with a capital that open a
sentence. -/
def paragraph (piece : List Char) : List Char :=
  [' '].intercalate ((words piece).mapIdx fun i word =>
    if opensSentence (words piece) i then capitalized word else word)

section Places

variable {word : List Char} {parts rest : List (List Char)}

/-- Behind a word the others get their capitals by what stands in front of each. -/
theorem withCapitals_endsSentence : withCapitals (endsSentence word) rest =
    rest.mapIdx fun i next =>
      if opensSentence (word :: rest) (i + 1) then capitalized next else next := by
  induction rest generalizing word with
  | nil => rfl
  | cons next rest ih =>
    rw [withCapitals, ih, List.mapIdx_cons]
    rfl

/-- Which words get a capital can be told from the word before each. -/
theorem withCapitals_true : withCapitals true parts =
    parts.mapIdx fun i word => if opensSentence parts i then capitalized word else word := by
  cases parts with
  | nil => rfl
  | cons word rest =>
    rw [withCapitals, withCapitals_endsSentence, List.mapIdx_cons]
    rfl

end Places

/-- The rules for final text make paragraphs of the pieces between the dictated breaks, as far as
these have words. The text is final afterwards if it was before. -/
theorem formatted_wordwise (t : Text) : ∃ pieces,
    (∀ other, CutsAt paragraphCommand t.chars other ↔ other = pieces) ∧
      t.formatted.isFinal = t.isFinal ∧
      t.formatted.chars = ['\n', '\n'].intercalate
        ((pieces.filter fun piece => !(words piece).isEmpty).map paragraph) := by
  have honce : 'N' ∉ "ew paragraph.".toList := by decide
  refine ⟨splitAt paragraphCommand t.chars, fun _ => cutsAt_iff honce, rfl, ?_⟩
  have hparagraph : (fun piece => [' '].intercalate (withCapitals true (words piece))) =
      paragraph := funext fun piece => by rw [withCapitals_true, paragraph]
  rw [chars_formatted, paragraphs, List.filter_map, List.map_map, ← hparagraph]
  rfl

example : (⟨"one.  two New paragraph. New paragraph. ßa ! b", true⟩ : Text).formatted =
    ⟨"One. Two\n\nSSa ! B", true⟩ := by decide +kernel

end SpeechTranscript.Text
