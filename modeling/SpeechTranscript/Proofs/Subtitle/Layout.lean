import SpeechTranscript.Proofs.Json.Number
import SpeechTranscript.Proofs.Text
import SpeechTranscript.Subtitle.Cue

/-!
# How a subtitle file is laid out

A subtitle file is a list of blocks with one blank line between: the header of WebVTT, then a block
for each cue. Every line of a block is ended by a line break; so a text that has line breaks of its
own takes more than one line.

* `toList_write`: a subtitle file as the lines of its blocks.
* `lines_unlines`: what a reader finds who goes line by line.
-/

namespace SpeechTranscript

/-- A line of a file, without the line break that ends it. -/
abbrev Line := List Char

/-! ## Lines -/

namespace Text

/-- Lines with a line break after each. -/
def unlines (ls : List Line) : List Char := ls.flatMap (· ++ ['\n'])

/-- The lines of a text: what stands between line breaks. A line break at the end begins no further
line. -/
def lines (cs : List Char) : List Line :=
  if (cs.splitOn '\n').getLast? = some [] then (cs.splitOn '\n').dropLast else cs.splitOn '\n'

section Lines

variable {ls : List Line}

@[simp] theorem unlines_nil : unlines [] = [] := rfl

@[simp] theorem unlines_cons (l : Line) (ls : List Line) :
    unlines (l :: ls) = l ++ '\n' :: unlines ls := by
  simp [unlines]

@[simp] theorem unlines_append (ls more : List Line) :
    unlines (ls ++ more) = unlines ls ++ unlines more := List.flatMap_append

@[simp] theorem lines_nil : lines [] = [] := by simp [lines]

/-- A line break ends a line, and the text goes on with a new one. -/
theorem lines_append_cons (front rest : List Char) :
    lines (front ++ '\n' :: rest) = front.splitOn '\n' ++ lines rest := by
  have hsome : rest.splitOn '\n' ≠ [] := List.splitOn_ne_nil _ _
  unfold lines
  rw [List.splitOn_append_cons_self, List.getLast?_append_of_ne_nil _ hsome]
  split
  · exact List.dropLast_append_of_ne_nil hsome
  · rfl

/-- Every line is found again, in parts if it has line breaks of its own. -/
theorem lines_unlines (ls : List Line) : lines (unlines ls) = ls.flatMap (·.splitOn '\n') := by
  induction ls with
  | nil => exact lines_nil
  | cons l ls ih => rw [unlines_cons, lines_append_cons, ih, List.flatMap_cons]

/-- Lines without line feeds are found again. -/
theorem lines_unlines_of_not_mem (h : ∀ l ∈ ls, '\n' ∉ l) : lines (unlines ls) = ls := by
  rw [lines_unlines]
  induction ls with
  | nil => rfl
  | cons l ls ih =>
    obtain ⟨hl, hls⟩ := List.forall_mem_cons.1 h
    rw [List.flatMap_cons, List.splitOn_eq_singleton hl, ih hls, List.singleton_append]

/-- A line break between the texts of blocks is a blank line between the blocks. -/
theorem intercalate_unlines (blocks : List (List Line)) :
    ['\n'].intercalate (blocks.map unlines) = unlines ([[]].intercalate blocks) := by
  induction blocks with
  | nil => rfl
  | cons block rest ih =>
    cases rest with
    | nil => simp
    | cons next rest =>
      rw [List.map_cons, List.map_cons, List.intercalate_cons_cons, ← List.map_cons, ih,
        List.intercalate_cons_cons]
      simp

/-- A line of separated blocks is one of a block or separates two. -/
theorem mem_of_mem_intercalate {separator : List Line} {blocks : List (List Line)} {line : Line}
    (h : line ∈ separator.intercalate blocks) :
    line ∈ separator ∨ ∃ block ∈ blocks, line ∈ block := by
  induction blocks with
  | nil => contradiction
  | cons block rest ih =>
    cases rest with
    | nil =>
      rw [List.intercalate_singleton] at h
      exact .inr ⟨block, List.mem_cons_self, h⟩
    | cons next rest =>
      rw [List.intercalate_cons_cons, List.mem_append, List.mem_append] at h
      rcases h with (hblock | hseparator) | hrest
      · exact .inr ⟨block, List.mem_cons_self, hblock⟩
      · exact .inl hseparator
      · rcases ih hrest with hseparator | ⟨other, hother, hline⟩
        · exact .inl hseparator
        · exact .inr ⟨other, List.mem_cons_of_mem _ hother, hline⟩

end Lines

end Text

/-! ## Timecodes -/

/-- A padded number is written with digits. -/
theorem isDigits_padded (width n : ℕ) : Json.IsDigits (Decimal.padded width n) := by
  obtain ⟨hsome, hdigits⟩ := Json.isDigits_toDigits n
  refine ⟨List.append_ne_nil_of_right_ne_nil _ hsome, fun d hd => ?_⟩
  rcases List.mem_append.1 hd with hzero | hdigit
  · rw [List.eq_of_mem_replicate hzero]
    rfl
  · exact hdigits d hdigit

/-- A timecode is written with digits and the marks between its fields. -/
theorem Timecode.mem_write {t : Timecode} {mark c : Char} (h : c ∈ t.write mark) :
    c.isDigit = true ∨ c = ':' ∨ c = mark := by
  have hdigits : ∀ {width n : ℕ}, c ∈ Decimal.padded width n → c.isDigit = true :=
    fun hc => (isDigits_padded _ _).2 c hc
  simp only [write, List.mem_append, List.mem_cons] at h
  grind

/-! ## Blocks -/

namespace SubtitleFormat

open Text

/-- The line with the number of a cue, where the format has one. -/
def numberLines : SubtitleFormat → ℕ → List Line
  | .srt, number => [Nat.toDigits 10 number]
  | .vtt, _ => []

/-- The lines of a cue. The text may have line breaks of its own. -/
def cueBlock (format : SubtitleFormat) (number : ℕ) (segment : Segment) : List Line :=
  format.numberLines number ++ [(format.timing segment).toList, segment.text.chars]

def headBlocks : SubtitleFormat → List (List Line)
  | .srt => []
  | .vtt => [["WEBVTT".toList]]

/-- The blocks of segments, the first of which is numbered `number`. -/
def cueBlocks (format : SubtitleFormat) (number : ℕ) (segments : List Segment) :
    List (List Line) :=
  segments.mapIdx fun i segment => format.cueBlock (number + i) segment

/-- A timing line has no line break. -/
theorem not_mem_timing (format : SubtitleFormat) (segment : Segment) :
    '\n' ∉ (format.timing segment).toList := by
  have htime : ∀ position, '\n' ∉ (format.time position).toList := by
    intro position hmem
    rw [time, String.toList_ofList] at hmem
    rcases Timecode.mem_write hmem with hdigit | hcolon | hmark
    · exact absurd hdigit (by decide)
    · exact absurd hcolon (by decide)
    · cases format <;> exact absurd hmark (by decide)
  simp [timing, htime]

section Write

variable (format : SubtitleFormat)

/-- The first segment has the first number, and the next one follows. -/
theorem cueBlocks_cons (number : ℕ) (segment : Segment) (rest : List Segment) :
    format.cueBlocks number (segment :: rest) =
      format.cueBlock number segment :: format.cueBlocks (number + 1) rest := by
  simp [cueBlocks, List.mapIdx_cons, Nat.add_assoc, Nat.add_comm 1]

theorem toList_cue (number : ℕ) (segment : Segment) :
    (format.cue number segment).toList = unlines (format.cueBlock number segment) := by
  cases format <;> simp [cue, cueBlock, numberLines, Text.chars, toString, Nat.repr]

theorem map_toList_cuesFrom (number : ℕ) (segments : List Segment) :
    (format.cuesFrom number segments).map String.toList =
      (format.cueBlocks number segments).map unlines := by
  refine List.ext_getElem (by simp [cuesFrom, cueBlocks]) fun i _ _ => ?_
  simp [cuesFrom, cueBlocks, toList_cue]

/-- A subtitle file is its blocks with a blank line between. -/
theorem toList_write (segments : List Segment) :
    (format.write segments).toList =
      unlines ([[]].intercalate (format.headBlocks ++ format.cueBlocks 1 segments)) := by
  have hcues := map_toList_cuesFrom format 1 segments
  rw [write, String.toList_intercalate, List.map_append, hcues, ← intercalate_unlines,
    List.map_append]
  cases format with
  | srt => rfl
  | vtt =>
    -- the header stands for its line and for the blank line after it
    cases (cueBlocks .vtt 1 segments).map unlines with
    | nil => rfl
    | cons first rest => simp [header, headBlocks]

end Write

end SubtitleFormat

end SpeechTranscript
