import SpeechTranscript.Proofs.Text.Formatting
import SpeechTranscript.Proofs.Text.Words

/-!
# Sentences

A text is cut wherever a blank follows a terminator. `Sentenced` tells how: each piece but the last
ends in a terminator, the next one starts with a blank, and no piece has such a place inside. The
sentences are the pieces that are more than blanks, without the blanks around them.

Sentences can also be counted by what stands between terminators. That is another number where a
terminator stands inside a word (`3.14`), or where a sentence starts with one (`...`).

* `sentences_lossless`: the sentences have the words of the text, and are what sentences should be.
* `sentenceCount_add_countP_bare`: the two counts, and how far they are apart.
* `sentenceCount_eq_length_iff`: when they agree.
-/

namespace SpeechTranscript.Text

/-! ## Cutting behind terminators -/

/-- No terminator stands directly before a blank. -/
def Undivided (cs : List Char) : Prop :=
  cs.IsChain fun a b => (!(isTerminator a && isBlank b)) = true

def startsBlank (cs : List Char) : Bool := cs.head?.any isBlank

/-- How a text is cut into sentences, with the blanks that stand before each. -/
inductive Sentenced : List Char → List (List Char) → Prop where
  | nil : Sentenced [] []
  | last {cs : List Char} (some : cs ≠ []) (undivided : Undivided cs) : Sentenced cs [cs]
  | next {front rest : List Char} {pieces : List (List Char)} (undivided : Undivided front)
      (ends : endsSentence front = true) (blank : startsBlank rest = true)
      (more : Sentenced rest pieces) : Sentenced (front ++ rest) (front :: pieces)

/-- The pieces of a text that is cut wherever a blank follows a terminator. -/
def pieces (cs : List Char) : List (List Char) :=
  cs.splitBy fun a b => !(isTerminator a && isBlank b)

theorem isBlank_of_isTerminator {c : Char} (h : isTerminator c = true) : isBlank c = false := by
  simp only [isTerminator, Bool.or_eq_true, beq_iff_eq] at h
  rcases h with (rfl | rfl) | rfl <;> rfl

section Pieces

variable {cs front rest : List Char} {parts : List (List Char)}

/-- What `splitBy` gives is a cut into sentences: each piece is undivided, and between two of them a
terminator stands before a blank. Induction on the pieces. -/
theorem sentenced_flatten (hsome : [] ∉ parts) (hundivided : ∀ part ∈ parts, Undivided part)
    (hcuts : parts.IsChain fun a b =>
      ∃ ha hb, (!(isTerminator (a.getLast ha) && isBlank (b.head hb))) = false) :
    Sentenced parts.flatten parts := by
  induction parts with
  | nil => exact .nil
  | cons part parts ih =>
    obtain ⟨hne, hsome⟩ := not_or.1 (List.mem_cons.not.1 hsome)
    obtain ⟨hpart, hundivided⟩ := List.forall_mem_cons.1 hundivided
    cases parts with
    | nil =>
      rw [List.flatten_singleton]
      exact .last (Ne.symm hne) hpart
    | cons second parts =>
      obtain ⟨⟨ha, hb, hcut⟩, hcuts⟩ := List.isChain_cons_cons.1 hcuts
      rw [Bool.not_eq_false', Bool.and_eq_true] at hcut
      -- the cut is between the last character of one piece and the first of the next
      refine .next hpart ?_ ?_ (ih hsome hundivided hcuts)
      · rw [endsSentence, List.getLast?_eq_some_getLast ha]
        exact hcut.1
      · rw [startsBlank, List.flatten_cons, List.head?_append_of_ne_nil _ hb,
          List.head?_eq_some_head hb]
        exact hcut.2

/-- Every text is cut in this way. -/
theorem sentenced_pieces (cs : List Char) : Sentenced cs (pieces cs) := by
  obtain ⟨hflatten, hsome, hundivided, hcuts⟩ := List.splitBy_eq_iff.1 (rfl : pieces cs = pieces cs)
  have hparts := sentenced_flatten hsome hundivided hcuts
  rwa [← hflatten] at hparts

theorem Sentenced.undivided (h : Sentenced cs parts) : ∀ part ∈ parts, Undivided part := by
  induction h with
  | nil => exact List.forall_mem_nil _
  | last _ hundivided => exact List.forall_mem_singleton.2 hundivided
  | next hundivided _ _ _ ih => exact List.forall_mem_cons.2 ⟨hundivided, ih⟩

/-- Every piece is a part of the text. -/
theorem Sentenced.isPart (h : Sentenced cs parts) : ∀ part ∈ parts, part <:+: cs := by
  induction h with
  | nil => exact List.forall_mem_nil _
  | last _ _ => exact List.forall_mem_singleton.2 List.infix_rfl
  | next _ _ _ _ ih =>
    exact List.forall_mem_cons.2 ⟨(List.prefix_append _ _).isInfix,
      fun part hpart => (ih part hpart).trans (List.suffix_append _ _).isInfix⟩

/-- A piece that another one follows ends in a terminator. -/
theorem Sentenced.ends (h : Sentenced cs parts) :
    parts.Pairwise fun part _ => endsSentence part = true := by
  induction h with
  | nil => exact .nil
  | last _ _ => exact List.pairwise_singleton _ _
  | next _ hends _ _ ih => exact .cons (fun _ _ => hends) ih

/-- No word is cut. -/
theorem Sentenced.words_eq (h : Sentenced cs parts) : parts.flatMap words = words cs := by
  induction h with
  | nil => rfl
  | last _ _ => rw [List.flatMap_singleton]
  | @next front rest parts _ _ hblank _ ih =>
    -- the cut is at a blank, which no word goes across
    obtain ⟨b, rest, rfl⟩ : ∃ b more, rest = b :: more := by
      cases rest with
      | nil => cases hblank
      | cons b more => exact ⟨b, more, rfl⟩
    rw [List.flatMap_cons, ih, words_append_blank hblank, words_cons_blank hblank]

end Pieces

/-! ## Without the blanks around -/

section Trim

variable {cs : List Char}

/-- What is left of a text without the blanks around it is a part of it. -/
theorem trim_isPart (cs : List Char) : trim cs <:+: cs := by
  have hend : trim cs <+: trimStart cs := List.rdropWhile_prefix isBlank (l := trimStart cs)
  exact hend.isInfix.trans (List.dropWhile_suffix isBlank).isInfix

/-- A last character that is no blank stays the last one. -/
theorem getLast?_trim {c : Char} (hlast : cs.getLast? = some c) (hc : isBlank c = false) :
    (trim cs).getLast? = some c := by
  obtain ⟨front, rfl⟩ := List.getLast?_eq_some_iff.1 hlast
  have hstart : ∃ kept, trimStart (front ++ [c]) = kept ++ [c] := by
    rw [trimStart, List.dropWhile_append]
    split
    · exact ⟨[], by simp [hc]⟩
    · exact ⟨_, rfl⟩
  obtain ⟨kept, hkept⟩ := hstart
  rw [trim, hkept, trimEnd, List.reverse_append, List.reverse_singleton, List.singleton_append,
    List.dropWhile_cons_of_neg (by simp [hc]), List.reverse_cons, List.reverse_reverse]
  exact List.getLast?_concat

/-- A terminator at the end is no blank, so it is still at the end of what is left. -/
theorem endsSentence_trim (h : endsSentence cs = true) : endsSentence (trim cs) = true := by
  obtain ⟨c, hc, hends⟩ := (Option.any_eq_true _ _).1 h
  rw [endsSentence, getLast?_trim hc (isBlank_of_isTerminator hends)]
  exact hends

/-- What is left of a text starts with the first character that is no blank. -/
theorem head?_trim (cs : List Char) : (trim cs).head? = (trimStart cs).head? := by
  have hend : trim cs <+: trimStart cs := List.rdropWhile_prefix isBlank (l := trimStart cs)
  cases htrim : trim cs with
  | nil =>
    have hblank : allBlank cs = true := by rw [← allBlank_trim, htrim]; rfl
    rw [trimStart, List.dropWhile_eq_nil_iff.2 (List.all_eq_true.1 hblank)]
  | cons c kept =>
    obtain ⟨more, hmore⟩ := hend
    rw [← hmore, htrim, List.cons_append, List.head?_cons, List.head?_cons]

end Trim

/-! ## The sentences -/

/-- What a sentence of a text should be: a part of it without blanks around, and no terminator
inside stands directly before a blank. -/
structure IsSentence (text s : List Char) : Prop where
  some : s ≠ []
  part : s <:+: text
  trimmed : Trimmed s
  whole : ∀ a b, isTerminator a = true → isBlank b = true → ¬ [a, b] <:+: s

/-- The sentences are the pieces without the blanks around them, as far as anything is left. -/
theorem sentences_eq (t : Text) :
    t.sentences = (((pieces t.chars).map trim).filter (!·.isEmpty)).map String.ofList := rfl

section Sentences

variable {t : Text} {cs : List Char} {parts : List (List Char)}

/-- An undivided text has no terminator directly before a blank anywhere inside. -/
theorem Undivided.lacks (h : Undivided cs) {a b : Char} (ha : isTerminator a = true)
    (hb : isBlank b = true) : ¬ [a, b] <:+: cs := by
  intro hpart
  have hpair := List.isChain_pair.1 ( List.IsChain.infix h hpart)
  rw [ha, hb] at hpair
  cases hpair

/-- Every sentence of a text is as a sentence should be. -/
theorem isSentence_of_mem {s : String} (h : s ∈ t.sentences) : IsSentence t.chars s.toList := by
  rw [sentences_eq] at h
  obtain ⟨kept, hkept, rfl⟩ := List.mem_map.1 h
  obtain ⟨hmem, hsome⟩ := List.mem_filter.1 hkept
  obtain ⟨part, hpart, rfl⟩ := List.mem_map.1 hmem
  have hpieces := sentenced_pieces t.chars
  rw [String.toList_ofList]
  refine ⟨by simpa using hsome, (trim_isPart part).trans (hpieces.isPart part hpart),
    trimmed_trim part, fun a b ha hb hinner => ?_⟩
  exact (hpieces.undivided part hpart).lacks ha hb (hinner.trans (trim_isPart part))

/-- Pieces with nothing in them have no words. -/
theorem flatMap_words_filter (parts : List (List Char)) :
    (parts.filter (!·.isEmpty)).flatMap words = parts.flatMap words := by
  induction parts with
  | nil => rfl
  | cons part parts ih =>
    cases part with
    | nil => exact ih
    | cons c part => rw [List.filter_cons_of_pos rfl, List.flatMap_cons, List.flatMap_cons, ih]

/-- The words of the sentences, one sentence after the other, are those of the text. -/
theorem words_sentences (t : Text) :
    (t.sentences.flatMap fun s => words s.toList) = words t.chars := by
  rw [sentences_eq, List.flatMap_map]
  simp only [String.toList_ofList]
  rw [flatMap_words_filter, List.flatMap_map]
  simp only [words_trim]
  exact (sentenced_pieces t.chars).words_eq

/-- A sentence that another one follows ends in a terminator. -/
theorem pairwise_sentences (t : Text) :
    t.sentences.Pairwise fun s _ => endsSentence s.toList = true := by
  have hpieces := (sentenced_pieces t.chars).ends
  have htrimmed : ((pieces t.chars).map trim).Pairwise fun part _ => endsSentence part = true :=
    hpieces.map trim fun _ _ => endsSentence_trim
  rw [sentences_eq]
  refine (htrimmed.filter _).map _ fun part _ hends => ?_
  rwa [String.toList_ofList]

/-- Cutting a text into sentences loses no word. Each sentence is a part of the text that should not
be cut further, and each but the last is at its end. -/
theorem sentences_lossless (t : Text) :
    (t.sentences.flatMap fun s => words s.toList) = words t.chars ∧
      (∀ s ∈ t.sentences, IsSentence t.chars s.toList) ∧
      ∀ s ∈ t.sentences.dropLast, endsSentence s.toList = true := by
  refine ⟨words_sentences t, fun s hs => isSentence_of_mem hs, fun s hs => ?_⟩
  have hne : t.sentences ≠ [] := by
    rintro hnil
    rw [hnil] at hs
    cases hs
  -- each sentence but the last is followed by the last
  have hpairs := pairwise_sentences t
  rw [← List.dropLast_append_getLast hne] at hpairs
  exact (List.pairwise_append.1 hpairs).2.2 s hs _ (List.mem_singleton_self _)

example : (⟨" Well... 3.14?\n\u2003No! ... yes", true⟩ : Text).sentences =
    ["Well...", "3.14?", "No!", "...", "yes"] := by decide +kernel

end Sentences

/-! ## Counting between terminators -/

/-- How many pieces between terminators hold more than blanks. -/
def phraseCount (cs : List Char) : ℕ := (splitWhere isTerminator cs).countP (!allBlank ·)

/-- Whether a text starts with a terminator, blanks apart. -/
def startsBare (cs : List Char) : Bool := (trimStart cs).head?.any isTerminator

/-- How often a terminator stands directly before a character that is neither a terminator nor a
blank. -/
def innerStops (cs : List Char) : ℕ :=
  (cs.zip cs.tail).countP fun (a, b) => isTerminator a && !(isTerminator b || isBlank b)

section Counting

variable {a b c : Char} {cs front rest : List Char} {parts : List (List Char)}

theorem innerStops_cons_cons : innerStops (a :: b :: cs) =
    innerStops (b :: cs) +
      if isTerminator a && !(isTerminator b || isBlank b) then 1 else 0 :=
  List.countP_cons

theorem innerStops_cons_of_neg (h : isTerminator c = false) :
    innerStops (c :: cs) = innerStops cs := by
  cases cs with
  | nil => rfl
  | cons d cs => rw [innerStops_cons_cons, h, Bool.false_and, if_neg Bool.false_ne_true, add_zero]

/-- A blank is never counted, so counting can stop before it. -/
theorem innerStops_append (h : startsBlank rest = true) :
    innerStops (front ++ rest) = innerStops front + innerStops rest := by
  induction front with
  | nil => exact (Nat.zero_add _).symm
  | cons a front ih =>
    cases front with
    | nil =>
      cases rest with
      | nil => cases h
      | cons b rest =>
        have hb : isBlank b = true := h
        -- the pair across the cut has a blank on the right
        rw [List.singleton_append, innerStops_cons_cons, hb, Bool.or_true, Bool.not_true,
          Bool.and_false, if_neg Bool.false_ne_true, add_zero]
        exact (Nat.zero_add _).symm
    | cons b front =>
      rw [List.cons_append, List.cons_append, innerStops_cons_cons, ← List.cons_append, ih,
        innerStops_cons_cons]
      omega

/-- Counting between terminators can stop behind one: the piece that starts there is new. -/
theorem phraseCount_append (h : endsSentence front = true) :
    phraseCount (front ++ rest) = phraseCount front + phraseCount rest := by
  obtain ⟨c, hlast, hc⟩ := (Option.any_eq_true _ _).1 h
  obtain ⟨front, rfl⟩ := List.getLast?_eq_some_iff.1 hlast
  -- the piece behind the terminator is empty as long as nothing follows
  have hfront : phraseCount (front ++ [c]) = phraseCount front := by
    rw [phraseCount, splitWhere_append_cons hc, List.countP_append]
    rfl
  rw [hfront, List.append_assoc, List.singleton_append, phraseCount, splitWhere_append_cons hc,
    List.countP_append]
  rfl

/-- Both counts can be taken piece by piece. -/
theorem Sentenced.sum_phraseCount (h : Sentenced cs parts) :
    (parts.map phraseCount).sum = phraseCount cs := by
  induction h with
  | nil => rfl
  | last _ _ => exact List.sum_singleton
  | next _ hends _ _ ih => rw [List.map_cons, List.sum_cons, ih, phraseCount_append hends]

/-- The count of terminators inside can be taken piece by piece, as each piece starts with a blank.
-/
theorem Sentenced.sum_innerStops (h : Sentenced cs parts) :
    (parts.map innerStops).sum = innerStops cs := by
  induction h with
  | nil => rfl
  | last _ _ => exact List.sum_singleton
  | next _ _ hblank _ ih => rw [List.map_cons, List.sum_cons, ih, innerStops_append hblank]

/-- The first piece between terminators is blank if the text is, or if a terminator comes first. -/
theorem allBlank_head {piece : List Char} {more : List (List Char)}
    (h : splitWhere isTerminator cs = piece :: more) :
    allBlank piece = (allBlank cs || startsBare cs) := by
  induction cs generalizing piece with
  | nil => cases h; rfl
  | cons c cs ih =>
    cases hc : isTerminator c with
    | true =>
      -- the first piece is empty
      have hblank := isBlank_of_isTerminator hc
      rw [splitWhere_cons_of_pos hc] at h
      cases h
      simp [startsBare, trimStart, hblank, hc, allBlank]
    | false =>
      obtain ⟨first, others, hfirst, hnext⟩ := @splitWhere_cons_of_neg _ cs c hc
      rw [hnext] at h
      cases h
      -- the first piece goes on, blank as long as its characters are
      have hrest := ih hfirst
      cases hblank : isBlank c with
      | true => simpa [startsBare, trimStart, hblank, allBlank] using hrest
      | false => simp [startsBare, trimStart, hblank, allBlank, hc]

/-- In an undivided text every terminator before something else ends a piece. -/
theorem Undivided.countP_tail (h : Undivided cs) :
    (splitWhere isTerminator cs).tail.countP (!allBlank ·) = innerStops cs := by
  induction cs with
  | nil => rfl
  | cons c cs ih =>
    have hrest := ih h.tail
    cases hc : isTerminator c with
    | false =>
      obtain ⟨piece, more, hpieces, hnext⟩ := @splitWhere_cons_of_neg _ cs c hc
      rw [hpieces] at hrest
      rw [hnext, innerStops_cons_of_neg hc, ← hrest]
      rfl
    | true =>
      obtain ⟨piece, more, hpieces⟩ :=
        List.exists_cons_of_ne_nil (splitWhere_ne_nil isTerminator cs)
      have hfirst := allBlank_head hpieces
      rw [hpieces, List.tail_cons] at hrest
      rw [splitWhere_cons_of_pos hc, List.tail_cons, hpieces, List.countP_cons, hrest, hfirst]
      cases cs with
      | nil => rfl
      | cons d cs =>
        -- what follows the terminator is no blank
        have hd : isBlank d = false := by simpa [hc] using (List.isChain_cons_cons.1 h).1
        rw [innerStops_cons_cons]
        simp [hc, hd, allBlank, startsBare, trimStart]

/-- An undivided text counts one for each terminator inside, and one more for what stands before the
first, if there is anything. -/
theorem Undivided.phraseCount_eq (h : Undivided cs) :
    phraseCount cs = innerStops cs + if allBlank cs || startsBare cs then 0 else 1 := by
  obtain ⟨piece, more, hpieces⟩ :=
    List.exists_cons_of_ne_nil (splitWhere_ne_nil isTerminator cs)
  have hmore := h.countP_tail
  rw [hpieces, List.tail_cons] at hmore
  rw [phraseCount, hpieces, List.countP_cons, hmore, allBlank_head hpieces]
  cases allBlank cs || startsBare cs <;> rfl

/-- The pieces count one each, but for those of blanks and those that start with a terminator. -/
theorem sum_phraseCount_of_undivided (h : ∀ part ∈ parts, Undivided part) :
    (parts.map phraseCount).sum = (parts.map innerStops).sum +
      parts.countP fun part => !(allBlank part || startsBare part) := by
  induction parts with
  | nil => rfl
  | cons part parts ih =>
    obtain ⟨hpart, hparts⟩ := List.forall_mem_cons.1 h
    rw [List.map_cons, List.sum_cons, ih hparts, hpart.phraseCount_eq, List.map_cons,
      List.sum_cons, List.countP_cons]
    cases allBlank part || startsBare part <;> simp <;> omega

/-- What starts with a terminator is more than blanks. -/
theorem countP_not_allBlank (parts : List (List Char)) :
    parts.countP (!allBlank ·) =
      parts.countP startsBare + parts.countP fun part => !(allBlank part || startsBare part) := by
  induction parts with
  | nil => rfl
  | cons part parts ih =>
    have hbare : allBlank part = true → startsBare part = false := fun hblank => by
      rw [startsBare, trimStart, List.dropWhile_eq_nil_iff.2 (List.all_eq_true.1 hblank)]
      rfl
    rw [List.countP_cons, List.countP_cons, List.countP_cons, ih]
    cases hblank : allBlank part with
    | true => simp [hbare hblank]
    | false => cases startsBare part <;> simp <;> omega

end Counting

/-! ## The two counts -/

section Counts

variable (t : Text)

theorem startsBare_trim (cs : List Char) : startsBare (trim cs) = startsBare cs := by
  rw [startsBare, (trimmed_trim cs).1, head?_trim, startsBare]

theorem isEmpty_of_trim (cs : List Char) : (trim cs).isEmpty = allBlank cs := by
  rw [← allBlank_trim, Bool.eq_iff_iff, List.isEmpty_iff]
  exact ⟨fun hnil => by rw [hnil]; rfl, (trimmed_trim cs).eq_nil⟩

/-- There are as many sentences as pieces that are more than blanks. -/
theorem length_sentences : t.sentences.length = (pieces t.chars).countP (!allBlank ·) := by
  rw [sentences_eq, List.length_map, ← List.countP_eq_length_filter, List.countP_map]
  exact List.countP_congr fun part _ => by rw [Function.comp_apply, isEmpty_of_trim]

/-- As many sentences start with a terminator as pieces do, as such a piece is more than blanks. -/
theorem countP_sentences_startsBare :
    (t.sentences.countP fun s => startsBare s.toList) = (pieces t.chars).countP startsBare := by
  -- a terminator is no blank, so such a piece is not left out
  have hkept : ∀ part, (startsBare (trim part) && !(trim part).isEmpty) = startsBare part := by
    intro part
    rw [startsBare_trim]
    cases hbare : startsBare part with
    | false => rfl
    | true =>
      cases htrim : trim part with
      | nil =>
        rw [← startsBare_trim, htrim] at hbare
        cases hbare
      | cons c cs => rfl
  rw [sentences_eq, List.countP_map, List.countP_filter, List.countP_map]
  refine List.countP_congr fun part _ => ?_
  rw [Function.comp_apply, Function.comp_apply, String.toList_ofList, hkept]

/-- Counting between terminators counts a sentence once more for each terminator that stands
directly before anything but a blank or a terminator, and once less if it starts with one. -/
theorem sentenceCount_add_countP_bare :
    t.sentenceCount + (t.sentences.countP fun s => startsBare s.toList) =
      t.sentences.length + innerStops t.chars := by
  have hpieces := sentenced_pieces t.chars
  have hcount : t.sentenceCount = innerStops t.chars +
      (pieces t.chars).countP fun part => !(allBlank part || startsBare part) := by
    rw [← hpieces.sum_innerStops, ← sum_phraseCount_of_undivided hpieces.undivided,
      hpieces.sum_phraseCount]
    rfl
  -- the pieces are counted twice: those that start with a terminator are missing on one side only
  rw [hcount, countP_sentences_startsBare, length_sentences, countP_not_allBlank]
  omega

/-- The two ways of counting sentences agree exactly when as many sentences start with a terminator
as there are terminators directly before anything but a blank or a terminator. -/
theorem sentenceCount_eq_length_iff :
    t.sentenceCount = t.sentences.length ↔
      (t.sentences.countP fun s => startsBare s.toList) = innerStops t.chars := by
  have hcounts := sentenceCount_add_countP_bare t
  omega

/-- A point inside a number ends no sentence, but is counted. -/
theorem sentenceCount_ne_of_decimalPoint :
    ¬ (⟨"Version 2.0 is out.", true⟩ : Text).sentenceCount =
      (⟨"Version 2.0 is out.", true⟩ : Text).sentences.length := by
  decide +kernel

end Counts

end SpeechTranscript.Text
