import SpeechTranscript.Proofs.Subtitle.Layout
import SpeechTranscript.Proofs.Timeline.Text

/-!
# The blocks of a subtitle file

Players cut a subtitle file where lines are blank. Texts are written as they are, so the blocks are
the cues exactly when no text has a blank line in it. Trimming does not take such a line away, and
merging neither adds nor takes one.

* `BlankRule`: what counts as a blank line.
* `Unbroken`: a text that is empty or has no blank line.
* `unbroken_spaced_iff`: two texts joined with a space.
* `framed_iff`: when the blocks of a SubRip file are its cues.
-/

namespace SpeechTranscript

open Text

/-- What a reader counts as a blank line: the empty line at least, and no line that holds more than
blanks. -/
structure BlankRule where
  blank : Line → Bool
  blank_nil : blank [] = true
  allBlank_of_blank : ∀ line, blank line = true → allBlank line = true

namespace BlankRule

/-- Only the empty line is blank. -/
def empty : BlankRule where
  blank line := line.isEmpty
  blank_nil := rfl
  allBlank_of_blank line h := by
    rw [List.isEmpty_iff.1 h]
    rfl

/-- A line of blanks is blank. -/
def blanks : BlankRule where
  blank := allBlank
  blank_nil := rfl
  allBlank_of_blank _ h := h

variable (rule : BlankRule)

/-! ## Blocks -/

/-- The blocks of lines between runs of blank lines. -/
def blocks (ls : List Line) : List (List Line) := (ls.splitOnP rule.blank).filter (!·.isEmpty)

section Blocks

variable {ls : List Line}

@[simp] theorem blocks_nil : rule.blocks [] = [] := by simp [blocks]

/-- Lines are cut at a blank one. -/
theorem blocks_append_cons (front rest : List Line) {line : Line} (h : rule.blank line = true) :
    rule.blocks (front ++ line :: rest) = rule.blocks front ++ rule.blocks rest := by
  rw [blocks, List.splitOnP_append_cons front rest h, List.filter_append]
  rfl

/-- Lines none of which is blank are one block. -/
theorem blocks_of_not_blank (hsome : ls ≠ []) (h : ∀ line ∈ ls, rule.blank line = false) :
    rule.blocks ls = [ls] := by
  rw [blocks, List.splitOnP_eq_singleton h]
  simpa using hsome

/-- Nothing but the separators is lost when a list is cut. -/
theorem flatten_splitOnP {α : Type} (p : α → Bool) (xs : List α) :
    (xs.splitOnP p).flatten = xs.filter (!p ·) := by
  induction xs with
  | nil => rfl
  | cons x xs ih =>
    obtain ⟨first, more, hparts⟩ := List.exists_cons_of_ne_nil (List.splitOnP_ne_nil p xs)
    rw [hparts, List.flatten_cons] at ih
    rw [List.splitOnP_cons_eq_if_modifyHead, hparts]
    cases hx : p x <;> simp [hx, ih]

/-- A line that is not blank belongs to a block. -/
theorem blocks_ne_nil {line : Line} (hline : line ∈ ls) (h : rule.blank line = false) :
    rule.blocks ls ≠ [] := by
  intro hnone
  -- the blocks hold all lines that are not blank
  have hflatten : (rule.blocks ls).flatten = ls.filter (!rule.blank ·) := by
    rw [blocks, List.flatten_filter_not_isEmpty, flatten_splitOnP]
  have hmem : line ∈ ls.filter (!rule.blank ·) := List.mem_filter.2 ⟨hline, by simp [h]⟩
  rw [← hflatten, hnone] at hmem
  contradiction

/-- Blocks with blank lines between are the blocks of each. -/
theorem blocks_intercalate (parts : List (List Line)) :
    rule.blocks ([[]].intercalate parts) = parts.flatMap rule.blocks := by
  induction parts with
  | nil => simp
  | cons part rest ih =>
    cases rest with
    | nil => simp
    | cons next rest =>
      rw [List.flatMap_cons, List.intercalate_cons_cons, List.append_assoc, List.singleton_append,
        rule.blocks_append_cons _ _ rule.blank_nil, ih]

end Blocks

end BlankRule

/-! ## The lines of trimmed texts -/

namespace Text

section Lines

variable {cs a b : List Char}

/-- Of two texts one after the other the last line and the first one become one. -/
theorem splitOn_append (a b : List Char) :
    ∃ front last first back, a.splitOn '\n' = front ++ [last] ∧ b.splitOn '\n' = first :: back ∧
      (a ++ b).splitOn '\n' = front ++ (last ++ first) :: back := by
  induction a with
  | nil =>
    obtain ⟨first, back, hb⟩ := List.exists_cons_of_ne_nil (List.splitOn_ne_nil '\n' b)
    exact ⟨[], [], first, back, rfl, hb, hb⟩
  | cons c a ih =>
    obtain ⟨front, last, first, back, ha, hb, hab⟩ := ih
    rw [List.cons_append]
    simp only [List.splitOn_cons_eq_if_modifyHead, ha, hab]
    split
    · -- a line break starts a line of its own
      exact ⟨[] :: front, last, first, back, rfl, hb, rfl⟩
    · -- any other character joins the line that follows it, which is the last one if there is no
      -- other
      cases front with
      | nil => exact ⟨[], c :: last, first, back, rfl, hb, rfl⟩
      | cons line front => exact ⟨(c :: line) :: front, last, first, back, rfl, hb, rfl⟩

theorem Trimmed.not_isBlank_head {c : Char} (h : Trimmed (c :: cs)) : isBlank c = false := by
  have hfirst := List.dropWhile_eq_self_iff.1 h.1 (by simp)
  simpa using hfirst

/-- A trimmed text does not end with a blank. -/
theorem Trimmed.not_isBlank_last {c : Char} (h : Trimmed (cs ++ [c])) : isBlank c = false := by
  have hreverse := congrArg List.reverse h.2
  rw [trimEnd, List.reverse_reverse, List.reverse_append, List.reverse_singleton,
    List.singleton_append] at hreverse
  have hlast := List.dropWhile_eq_self_iff.1 hreverse (by simp)
  simpa using hlast

/-- A character that is no blank is no line break, so it is one line. -/
theorem splitOn_singleton {c : Char} (h : isBlank c = false) : [c].splitOn '\n' = [[c]] := by
  refine List.splitOn_eq_singleton fun hmem => ?_
  rw [← List.mem_singleton.1 hmem] at h
  exact absurd h (by decide)

/-- The first line of a trimmed text holds more than blanks. -/
theorem Trimmed.exists_first_line (h : Trimmed cs) (hsome : cs ≠ []) :
    ∃ first back, cs.splitOn '\n' = first :: back ∧ allBlank first = false := by
  obtain ⟨c, rest, rfl⟩ := List.exists_cons_of_ne_nil hsome
  have hc := h.not_isBlank_head
  obtain ⟨front, last, first, back, hfront, -, hparts⟩ := splitOn_append [c] rest
  rw [splitOn_singleton hc] at hfront
  -- there is but one line before the rest
  obtain ⟨rfl, rfl⟩ : front = [] ∧ last = [c] := by
    cases front with
    | nil => exact ⟨rfl, (List.singleton_inj.1 hfront).symm⟩
    | cons line front => simp at hfront
  refine ⟨[c] ++ first, back, hparts, ?_⟩
  simp [allBlank, hc]

/-- The last line of a trimmed text is not blank. -/
theorem Trimmed.exists_last_line (h : Trimmed cs) (hsome : cs ≠ []) :
    ∃ front last, cs.splitOn '\n' = front ++ [last] ∧ allBlank last = false := by
  obtain ⟨before, c, rfl⟩ := (List.eq_nil_or_concat cs).resolve_left hsome
  rw [List.concat_eq_append] at h ⊢
  have hc := h.not_isBlank_last
  obtain ⟨front, last, first, back, -, hback, hparts⟩ := splitOn_append before [c]
  rw [splitOn_singleton hc] at hback
  cases hback
  refine ⟨front, last ++ [c], hparts, ?_⟩
  simp [allBlank, hc]

end Lines

end Text

namespace BlankRule

variable (rule : BlankRule)

/-! ## Texts without blank lines -/

/-- A text that is empty or has no blank line. -/
def Unbroken (cs : List Char) : Prop := cs = [] ∨ ∀ line ∈ cs.splitOn '\n', rule.blank line = false

instance (cs : List Char) : Decidable (rule.Unbroken cs) := inferInstanceAs (Decidable (_ ∨ _))

section Unbroken

variable {a b : String}

theorem not_blank {line : Line} (h : allBlank line = false) : rule.blank line = false := by
  refine Bool.eq_false_of_not_eq_true fun hblank => ?_
  rw [rule.allBlank_of_blank line hblank] at h
  contradiction

/-- Joining trimmed texts with a space neither adds nor takes a blank line. -/
theorem unbroken_spaced_iff (ha : Trimmed a.toList) (hb : Trimmed b.toList) :
    rule.Unbroken (spaced a b).toList ↔ rule.Unbroken a.toList ∧ rule.Unbroken b.toList := by
  -- an empty text adds nothing, not even the space
  by_cases hane : a = ""
  · subst hane
    rw [spaced_empty_left]
    exact (and_iff_right (.inl rfl)).symm
  by_cases hbne : b = ""
  · subst hbne
    rw [spaced_empty_right]
    exact (and_iff_left (.inl rfl)).symm
  have hane' : a.toList ≠ [] := by simpa using hane
  have hbne' : b.toList ≠ [] := by simpa using hbne
  obtain ⟨front, last, hlines, hlast⟩ := ha.exists_last_line hane'
  obtain ⟨first, back, hlines', hfirst⟩ := hb.exists_first_line hbne'
  have hspaced : (spaced a b).toList = a.toList ++ (' ' :: b.toList) := by
    rw [spaced_of_ne hane hbne]
    simp
  -- the last line of one and the first of the other become one, and no other line changes
  have hjoined : (spaced a b).toList.splitOn '\n' = front ++ (last ++ ' ' :: first) :: back := by
    rw [hspaced]
    obtain ⟨front', last', first', back', hfront, hback, hparts⟩ :=
      splitOn_append a.toList (' ' :: b.toList)
    rw [hlines] at hfront
    rw [List.splitOn_cons_eq_if_modifyHead, if_neg (by decide), hlines'] at hback
    obtain ⟨rfl, hsame⟩ := List.append_inj' hfront rfl
    cases hsame
    cases hback
    exact hparts
  -- it holds what either of them held, which was more than blanks
  have hmiddle : allBlank (last ++ ' ' :: first) = false := by
    unfold allBlank at hlast ⊢
    rw [List.all_append, hlast, Bool.false_and]
  have hsome : (spaced a b).toList ≠ [] := by simp [hspaced]
  unfold Unbroken
  rw [or_iff_right hsome, or_iff_right hane', or_iff_right hbne', hjoined, hlines, hlines']
  simp only [List.forall_mem_append, List.forall_mem_cons, rule.not_blank hmiddle,
    rule.not_blank hlast, rule.not_blank hfirst]
  simp

end Unbroken

/-! ## The blocks of cues -/

/-- The first two lines of a cue in SubRip: its number and its times. -/
def opening (number : ℕ) (segment : Segment) : List Line :=
  [(toString number).toList, (SubtitleFormat.srt.timing segment).toList]

/-- The blocks of a SubRip file, cut at runs of blank lines, are its cues: there are as many as
segments, and each begins with its number from 1 on and the times of its segment. -/
structure Framed (file : String) (segments : List Segment) : Prop where
  length_eq : (rule.blocks (lines file.toList)).length = segments.length
  opens : ∀ k segment, segments[k]? = some segment →
    ∃ block, (rule.blocks (lines file.toList))[k]? = some block ∧ opening (k + 1) segment <+: block

/-- The lines of a cue, with those of its text told apart. -/
def cueLines (number : ℕ) (segment : Segment) : List Line :=
  opening number segment ++ segment.text.chars.splitOn '\n'

/-- Of the lines that are written for a cue only its text can fall into more than one. -/
theorem flatMap_splitOn_cueBlock (number : ℕ) (segment : Segment) :
    (SubtitleFormat.srt.cueBlock number segment).flatMap (·.splitOn '\n') =
      cueLines number segment := by
  have hnumber : '\n' ∉ Nat.toDigits 10 number := fun hbreak =>
    absurd ((Json.isDigits_toDigits number).2 _ hbreak) (by decide)
  have htiming := SubtitleFormat.not_mem_timing .srt segment
  rw [SubtitleFormat.cueBlock, SubtitleFormat.numberLines]
  simp [List.splitOn_eq_singleton hnumber, List.splitOn_eq_singleton htiming, cueLines, opening,
    toString, Nat.repr]

/-- The cues of segments as lines, the first of them numbered `number`. -/
def cuesFrom (number : ℕ) : List Segment → List (List Line)
  | [] => []
  | segment :: rest => cueLines number segment :: cuesFrom (number + 1) rest

/-- The cues that are written, each as the lines that a reader sees. -/
theorem map_cueBlocks (number : ℕ) (segments : List Segment) :
    (SubtitleFormat.srt.cueBlocks number segments).map (·.flatMap (·.splitOn '\n')) =
      cuesFrom number segments := by
  induction segments generalizing number with
  | nil => rfl
  | cons segment rest ih =>
    rw [SubtitleFormat.cueBlocks_cons, List.map_cons, flatMap_splitOn_cueBlock, ih, cuesFrom]

/-- Lines can be told apart block by block. -/
theorem flatMap_intercalate (parts : List (List Line)) :
    ([[]].intercalate parts).flatMap (·.splitOn '\n') =
      [[]].intercalate (parts.map (·.flatMap (·.splitOn '\n'))) := by
  induction parts with
  | nil => rfl
  | cons part rest ih =>
    cases rest with
    | nil => simp
    | cons next rest =>
      rw [List.map_cons] at ih ⊢
      rw [List.map_cons, List.intercalate_cons_cons, List.intercalate_cons_cons, ← ih]
      simp

/-- A SubRip file has the blocks of its cues. -/
theorem blocks_write (segments : List Segment) :
    rule.blocks (lines (SubtitleFormat.srt.write segments).toList) =
      (cuesFrom 1 segments).flatMap rule.blocks := by
  rw [SubtitleFormat.toList_write, lines_unlines, SubtitleFormat.headBlocks, List.nil_append,
    flatMap_intercalate, map_cueBlocks, rule.blocks_intercalate]

section Cue

variable {number : ℕ} {segment : Segment}

/-- A digit is no blank. -/
theorem not_isBlank_of_isDigit {c : Char} (h : c.isDigit = true) : isBlank c = false := by
  have hcode : 48 ≤ c.toNat ∧ c.toNat ≤ 57 := by
    simpa [Char.isDigit, UInt32.le_iff_toNat_le] using h
  simp only [isBlank, Bool.or_eq_false_iff, Bool.and_eq_false_iff, decide_eq_false_iff_not,
    beq_eq_false_iff_ne]
  omega

/-- A line with a character that is not blank is not blank. -/
theorem not_blank_of_mem {line : Line} {c : Char} (hc : c ∈ line) (h : isBlank c = false) :
    rule.blank line = false := by
  refine rule.not_blank (Bool.eq_false_of_not_eq_true fun hall => ?_)
  rw [List.all_eq_true.1 hall c hc] at h
  contradiction

/-- The first two lines of a cue are never blank: one has a digit in it, the other an arrow. -/
theorem opening_not_blank (number : ℕ) (segment : Segment) :
    ∀ line ∈ opening number segment, rule.blank line = false := by
  intro line hline
  rcases List.mem_pair.1 hline with rfl | rfl
  · obtain ⟨hsome, hdigits⟩ := Json.isDigits_toDigits number
    obtain ⟨c, hc⟩ := List.exists_mem_of_ne_nil _ hsome
    have hline : (toString number).toList = Nat.toDigits 10 number := by simp [toString, Nat.repr]
    rw [hline]
    exact rule.not_blank_of_mem hc (not_isBlank_of_isDigit (hdigits c hc))
  · have harrow : '-' ∈ (SubtitleFormat.srt.timing segment).toList := by
      simp [SubtitleFormat.timing]
    exact rule.not_blank_of_mem harrow (by decide)

/-- The lines of a text that belong to the block of its cue. -/
def textLines (segment : Segment) : List Line :=
  if segment.text.chars = [] then [] else segment.text.chars.splitOn '\n'

/-- A cue whose text has no blank line is one block. -/
theorem blocks_cueLines_of_unbroken (h : rule.Unbroken segment.text.chars) :
    rule.blocks (cueLines number segment) = [opening number segment ++ textLines segment] := by
  have hopening := rule.opening_not_blank number segment
  have hsome : opening number segment ≠ [] := List.cons_ne_nil _ _
  rw [cueLines, textLines]
  rcases h with hnone | hlines
  · -- the line of an empty text is blank
    rw [if_pos hnone, hnone, List.splitOn_nil, rule.blocks_append_cons _ _ rule.blank_nil,
      rule.blocks_nil, rule.blocks_of_not_blank hsome hopening, List.append_nil, List.append_nil]
  · split
    · rename_i hnone
      rw [hnone, List.splitOn_nil] at hlines
      have hblank := hlines [] (List.mem_singleton_self _)
      rw [rule.blank_nil] at hblank
      contradiction
    · refine rule.blocks_of_not_blank (List.append_ne_nil_of_left_ne_nil hsome _) ?_
      exact List.forall_mem_append.2 ⟨hopening, hlines⟩

/-- A cue whose text has a blank line inside falls into two blocks at least, since more than blanks
comes after it. -/
theorem two_le_length_blocks_cueLines (htidy : segment.Tidy)
    (h : ¬ rule.Unbroken segment.text.chars) :
    2 ≤ (rule.blocks (cueLines number segment)).length := by
  unfold Unbroken at h
  push Not at h
  obtain ⟨hsome, line, hline, hblank⟩ := h
  replace hblank := Bool.eq_true_of_not_eq_false hblank
  obtain ⟨before, after, hparts⟩ := List.append_of_mem hline
  obtain ⟨front, last, hlines, hlast⟩ := htidy.exists_last_line hsome
  -- the last line of the text comes behind the blank one
  have hafter : last ∈ after := by
    rw [hlines] at hparts
    rcases List.eq_nil_or_concat after with rfl | ⟨more, other, rfl⟩
    · obtain ⟨-, hsame⟩ := List.append_inj' hparts rfl
      rw [List.singleton_inj.1 hsame, rule.allBlank_of_blank line hblank] at hlast
      contradiction
    · rw [List.concat_eq_append, ← List.cons_append, ← List.append_assoc] at hparts
      obtain ⟨-, hsame⟩ := List.append_inj' hparts rfl
      rw [List.singleton_inj.1 hsame, List.concat_eq_append]
      exact List.mem_append_right _ (List.mem_singleton_self _)
  -- one block before the blank line and one behind it
  have hfirst : rule.blocks (opening number segment ++ before) ≠ [] :=
    rule.blocks_ne_nil (List.mem_append_left _ List.mem_cons_self)
      (rule.opening_not_blank number segment _ List.mem_cons_self)
  have hrest : rule.blocks after ≠ [] := rule.blocks_ne_nil hafter (rule.not_blank hlast)
  rw [cueLines, hparts, ← List.append_assoc, rule.blocks_append_cons _ _ hblank,
    List.length_append]
  have := List.length_pos_of_ne_nil hfirst
  have := List.length_pos_of_ne_nil hrest
  omega

end Cue

section File

variable {segments : List Segment}

/-- Every cue has a block at least; if there are no more, no text has a blank line. -/
theorem length_blocks_cuesFrom (htidy : ∀ segment ∈ segments, segment.Tidy) (number : ℕ) :
    segments.length ≤ ((cuesFrom number segments).flatMap rule.blocks).length ∧
      (((cuesFrom number segments).flatMap rule.blocks).length = segments.length →
        ∀ segment ∈ segments, rule.Unbroken segment.text.chars) := by
  induction segments generalizing number with
  | nil => exact ⟨le_rfl, fun _ => nofun⟩
  | cons segment rest ih =>
    rw [List.forall_mem_cons] at htidy
    obtain ⟨hle, hrest⟩ := ih htidy.2 (number + 1)
    rw [cuesFrom, List.flatMap_cons, List.length_append, List.length_cons, List.forall_mem_cons]
    -- a cue has one block, or two at least, so a sum that is no greater than the number of cues
    -- leaves no second case
    by_cases h : rule.Unbroken segment.text.chars
    · rw [rule.blocks_cueLines_of_unbroken h, List.length_singleton]
      exact ⟨by omega, fun heq => ⟨h, hrest (by omega)⟩⟩
    · have htwo : 2 ≤ (rule.blocks (cueLines number segment)).length :=
        rule.two_le_length_blocks_cueLines htidy.1 h
      exact ⟨by omega, fun heq => by omega⟩

/-- Without blank lines in the texts each cue is a block. -/
theorem blocks_cuesFrom (h : ∀ segment ∈ segments, rule.Unbroken segment.text.chars)
    (number : ℕ) :
    (cuesFrom number segments).flatMap rule.blocks =
      segments.mapIdx fun i segment => opening (number + i) segment ++ textLines segment := by
  induction segments generalizing number with
  | nil => rfl
  | cons segment rest ih =>
    rw [List.forall_mem_cons] at h
    rw [cuesFrom, List.flatMap_cons, rule.blocks_cueLines_of_unbroken h.1, ih h.2]
    simp [List.mapIdx_cons, Nat.add_assoc, Nat.add_comm 1]

/-- The blocks of a SubRip file are its cues exactly when no text has a blank line in it. -/
theorem framed_iff (htidy : ∀ segment ∈ segments, segment.Tidy) :
    rule.Framed (SubtitleFormat.srt.write segments) segments ↔
      ∀ segment ∈ segments, rule.Unbroken segment.text.chars := by
  constructor
  · intro h
    -- as many blocks as cues leave no room for a broken one
    have hlength := h.length_eq
    rw [blocks_write] at hlength
    exact (rule.length_blocks_cuesFrom htidy 1).2 hlength
  · intro h
    have hblocks := (rule.blocks_write segments).trans (rule.blocks_cuesFrom h 1)
    refine ⟨by rw [hblocks, List.length_mapIdx], fun k segment hk => ?_⟩
    refine ⟨opening (k + 1) segment ++ textLines segment, ?_, List.prefix_append _ _⟩
    rw [hblocks, List.getElem?_mapIdx, hk, Option.map_some, Nat.add_comm 1]

end File

end BlankRule

end SpeechTranscript
