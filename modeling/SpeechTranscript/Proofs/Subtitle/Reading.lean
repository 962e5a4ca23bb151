import SpeechTranscript.Proofs.Decimal.Rounding
import SpeechTranscript.Proofs.Duration
import SpeechTranscript.Proofs.Subtitle.Layout

/-!
# Subtitles read back

A reader that goes through a subtitle file line by line finds the cues that were written, with
positions to the nearest millisecond, as long as no text has a line break. The reader is strict: a
field has its fixed width, minutes and seconds stay below 60, and nothing but a blank line stands
between two cues.

* `Timecode.read?_write`: a timecode read back.
* `read?_write`: the cues of a file.
-/

namespace SpeechTranscript

open Json Text

/-! ## Numbers -/

/-- The number that a line of nothing but digits stands for. -/
def readNumber? (cs : List Char) : Option ℕ :=
  if cs ≠ [] ∧ cs.all Char.isDigit then some (Decimal.digitsValue cs) else none

theorem readNumber?_of_isDigits {cs : List Char} (h : IsDigits cs) :
    readNumber? cs = some (digitsNumber cs) := by
  rw [readNumber?, if_pos ⟨h.1, List.all_eq_true.2 h.2⟩, digitsValue_eq]

section Padded

variable {width n : ℕ}

/-- Zeros in front leave a number as it is. -/
theorem digitsNumber_padded (width n : ℕ) : digitsNumber (Decimal.padded width n) = n := by
  rw [Decimal.padded, digitsNumber_append, digitsNumber_replicate_zero, Nat.zero_mul, Nat.zero_add,
    digitsNumber_toDigits]

theorem readNumber?_padded (width n : ℕ) : readNumber? (Decimal.padded width n) = some n := by
  rw [readNumber?_of_isDigits (isDigits_padded width n), digitsNumber_padded]

/-- What fits in a field fills it. -/
theorem length_padded (hpos : 0 < width) (h : n < 10 ^ width) :
    (Decimal.padded width n).length = width := by
  have hle : (Nat.toDigits 10 n).length ≤ width := (Nat.length_toDigits_le_iff (by omega) hpos).2 h
  rw [Decimal.padded, List.length_append, List.length_replicate]
  omega

end Padded

/-! ## Timecodes -/

namespace Timecode

/-- Reads a timecode: fields of two, two, two and three digits. -/
def read? (mark : Char) : List Char → Option Timecode
  | [h, h', c, m, m', c', s, s', c'', f, f', f''] =>
    if c = ':' ∧ c' = ':' ∧ c'' = mark then do
      let hours ← readNumber? [h, h']
      let minutes ← readNumber? [m, m']
      let seconds ← readNumber? [s, s']
      let millis ← readNumber? [f, f', f'']
      if minutes < 60 ∧ seconds < 60 then some ⟨hours, minutes, seconds, millis⟩ else none
    else none
  | _ => none

/-- The number of characters of a timecode. -/
def width : ℕ := 12

section Read

variable {t : Timecode}

/-- A timecode as a clock shows it, on less than a hundred hours. -/
structure OnClock (t : Timecode) : Prop where
  hours : t.hours < 100
  minutes : t.minutes < 60
  seconds : t.seconds < 60
  millis : t.millis < 1000

/-- A timecode on a clock fills its fields, so it is written with these twelve characters. -/
theorem OnClock.exists_write (h : t.OnClock) (mark : Char) :
    ∃ a a' b b' c c' d d' d'', Decimal.padded 2 t.hours = [a, a'] ∧
      Decimal.padded 2 t.minutes = [b, b'] ∧ Decimal.padded 2 t.seconds = [c, c'] ∧
      Decimal.padded 3 t.millis = [d, d', d''] ∧
      t.write mark = [a, a', ':', b, b', ':', c, c', mark, d, d', d''] := by
  obtain ⟨hhours, hminutes, hseconds, hmillis⟩ := h
  -- each field has as many digits as it is wide
  obtain ⟨a, a', ha⟩ := List.length_eq_two.1 (length_padded two_pos hhours)
  obtain ⟨b, b', hb⟩ := List.length_eq_two.1
    (length_padded two_pos (hminutes.trans (by norm_num : 60 < 10 ^ 2)))
  obtain ⟨c, c', hc⟩ := List.length_eq_two.1
    (length_padded two_pos (hseconds.trans (by norm_num : 60 < 10 ^ 2)))
  obtain ⟨d, d', d'', hd⟩ := List.length_eq_three.1 (length_padded three_pos hmillis)
  refine ⟨a, a', b, b', c, c', d, d', d'', ha, hb, hc, hd, ?_⟩
  rw [write, ha, hb, hc, hd]
  rfl

/-- A timecode is read back. -/
theorem OnClock.read?_write (h : t.OnClock) (mark : Char) : read? mark (t.write mark) = some t := by
  obtain ⟨a, a', b, b', c, c', d, d', d'', ha, hb, hc, hd, hwrite⟩ := h.exists_write mark
  rw [hwrite]
  -- field by field, as each is read as its number
  simp [read?, ← ha, ← hb, ← hc, ← hd, readNumber?_padded, h.minutes, h.seconds]

/-- All timecodes on a clock have the same number of characters, which is how the reader finds the
second one. -/
theorem OnClock.length_write (h : t.OnClock) (mark : Char) : (t.write mark).length = width := by
  obtain ⟨a, a', b, b', c, c', d, d', d'', -, -, -, -, hwrite⟩ := h.exists_write mark
  rw [hwrite]
  rfl

end Read

/-! ## Positions -/

/-- The milliseconds of a position as a number. -/
theorem value_millis (d : Duration) :
    d.millis.isFinite = true ∧ Double.value d.millis = Double.rounded (d.number * 1000) := by
  have hbound : |d.number * 1000| ≤ 2 ^ 100 := by
    rw [abs_of_nonneg (mul_nonneg d.number_nonneg (by norm_num))]
    calc d.number * 1000 ≤ 86400 * 1000 := mul_le_mul_of_nonneg_right d.number_le (by norm_num)
      _ ≤ 2 ^ 100 := by norm_num
  have hproduct := Double.value_mul (y := 1000) d.isFinite (by decide +kernel)
    (by rw [Duration.value_thousand]; exact Double.abs_rounded_lt hbound)
  rwa [Duration.value_thousand] at hproduct

theorem value_millis_nonneg (d : Duration) : 0 ≤ Double.value d.millis := by
  rw [(value_millis d).2]
  exact Double.rounded_nonneg (mul_nonneg d.number_nonneg (by norm_num))

/-- A position is written to the millisecond nearest to it. -/
theorem nearestMillis_eq_round (d : Duration) :
    (nearestMillis d : ℤ) = round (Double.value d.millis) := by
  have hnonneg := value_millis_nonneg d
  -- rounding to a whole number keeps the sign
  have hround : 0 ≤ round (Double.value d.millis) := by
    have h := Decimal.round_le_round hnonneg
    rwa [round_zero] at h
  rw [nearestMillis, Decimal.nearestInt?_of_nonneg (value_millis d).1 hnonneg, Option.getD_some,
    Int.toNat_of_nonneg hround]

/-- No position lies more than a day behind the start. -/
theorem nearestMillis_le (d : Duration) : nearestMillis d ≤ 86400000 := by
  have hday : Double.rounded 86400000 = 86400000 :=
    Double.rounded_eq_self ⟨86400000, 0, by norm_num, by norm_num, by norm_num⟩
  have hvalue : Double.value d.millis ≤ ((86400000 : ℤ) : ℚ) := by
    rw [(value_millis d).2]
    -- a day in milliseconds is a double, so rounding does not go past it
    have hle := Double.rounded_mono
      (mul_le_mul_of_nonneg_right d.number_le (by norm_num : (0 : ℚ) ≤ 1000))
    norm_num at hle
    rw [hday] at hle
    exact_mod_cast hle
  have hround := Decimal.round_le_round hvalue
  rw [round_intCast, ← nearestMillis_eq_round] at hround
  omega

/-- Every position has a timecode on a clock, as it lies within a day. -/
theorem onClock_ofDuration (d : Duration) : (ofDuration d).OnClock where
  hours := by
    have h := nearestMillis_le d
    show nearestMillis d / 3600000 < 100
    omega
  minutes := minutes_ofMillis_lt _
  seconds := seconds_ofMillis_lt _
  millis := millis_ofMillis_lt _

end Timecode

/-! ## Cues -/

/-- A cue as a reader finds it, with its number where the format has one and its times in
milliseconds. -/
structure Cue where
  number : Option ℕ
  start : ℕ
  stop : ℕ
  text : String
  deriving DecidableEq

namespace SubtitleFormat

/-- Between the two timecodes of a cue. -/
def arrow : List Char := " --> ".toList

/-- Reads the two times of a cue in milliseconds. -/
def readTiming? (format : SubtitleFormat) (line : Line) : Option (ℕ × ℕ) := do
  let start ← Timecode.read? format.millisMark (line.take Timecode.width)
  let stop ← Timecode.read? format.millisMark (line.drop (Timecode.width + arrow.length))
  if (line.drop Timecode.width).take arrow.length = arrow then some (start.toMillis, stop.toMillis)
  else none

/-- Reads a cue off the front of lines, and gives the lines that are left. -/
def readCue? : SubtitleFormat → List Line → Option (Cue × List Line)
  | .srt, number :: timing :: text :: rest => do
    let number ← readNumber? number
    let (start, stop) ← readTiming? .srt timing
    return (⟨some number, start, stop, String.ofList text⟩, rest)
  | .vtt, timing :: text :: rest => do
    let (start, stop) ← readTiming? .vtt timing
    return (⟨none, start, stop, String.ofList text⟩, rest)
  | _, _ => none

/-- A cue takes up lines. -/
theorem length_of_readCue? {format : SubtitleFormat} {ls rest : List Line} {cue : Cue}
    (h : format.readCue? ls = some (cue, rest)) : rest.length < ls.length := by
  unfold readCue? at h
  split at h
  · -- three lines in SubRip
    obtain ⟨number, -, h⟩ := Option.bind_eq_some_iff.1 h
    obtain ⟨times, -, h⟩ := Option.bind_eq_some_iff.1 h
    cases h
    simp only [List.length_cons]
    omega
  · obtain ⟨times, -, h⟩ := Option.bind_eq_some_iff.1 h
    cases h
    simp only [List.length_cons]
    omega
  · contradiction

/-- Reads cues with a blank line between. -/
def readCues? (format : SubtitleFormat) (ls : List Line) : Option (List Cue) :=
  match _h : format.readCue? ls with
  | none => none
  | some (cue, []) => some [cue]
  | some (cue, line :: rest) => if line = [] then (cue :: ·) <$> format.readCues? rest else none
termination_by ls.length
decreasing_by
  have hshorter := length_of_readCue? ‹_›
  simp only [List.length_cons] at hshorter
  omega

/-- The cue that takes up the last line is the last one. -/
theorem readCues?_of_last {format : SubtitleFormat} {ls : List Line} {cue : Cue}
    (h : format.readCue? ls = some (cue, [])) : format.readCues? ls = some [cue] := by
  rw [readCues?]
  split <;> simp_all

/-- After a blank line the reading goes on with the next cue. -/
theorem readCues?_of_blank {format : SubtitleFormat} {ls rest : List Line} {cue : Cue}
    (h : format.readCue? ls = some (cue, [] :: rest)) :
    format.readCues? ls = (cue :: ·) <$> format.readCues? rest := by
  rw [readCues?]
  split <;> simp_all

/-- Reads the lines of a file behind its header. -/
def readBody? (format : SubtitleFormat) (ls : List Line) : Option (List Cue) :=
  if ls = [] then some [] else format.readCues? ls

/-- Reads a file: in WebVTT a header first, with a blank line between it and the cues. -/
def read? (format : SubtitleFormat) (file : String) : Option (List Cue) :=
  match format, lines file.toList with
  | .srt, ls => readBody? .srt ls
  | .vtt, first :: ls =>
    if first = "WEBVTT".toList then
      match ls with
      | [] => some []
      | line :: rest => if line = [] then readBody? .vtt rest else none
    else none
  | .vtt, [] => none

section Read

variable (format : SubtitleFormat)

/-! ## What is written is read -/

/-- The cue of a segment, to the nearest millisecond. -/
def cueOf (number : ℕ) (segment : Segment) : Cue where
  number := match format with
    | .srt => some number
    | .vtt => none
  start := Timecode.nearestMillis segment.start
  stop := Timecode.nearestMillis segment.stop
  text := segment.text.content

/-- Both times of a cue are read back from its second line, to the nearest millisecond. -/
theorem readTiming?_timing (segment : Segment) :
    format.readTiming? (format.timing segment).toList =
      some (Timecode.nearestMillis segment.start, Timecode.nearestMillis segment.stop) := by
  have hstart := Timecode.onClock_ofDuration segment.start
  have hstop := Timecode.onClock_ofDuration segment.stop
  have hline : (format.timing segment).toList =
      (Timecode.ofDuration segment.start).write format.millisMark ++ (arrow ++
        (Timecode.ofDuration segment.stop).write format.millisMark) := by
    simp [timing, time, arrow]
  -- the arrow starts where the first timecode ends, and the second one behind the arrow
  have hwidth := hstart.length_write format.millisMark
  rw [readTiming?, hline, ← hwidth, List.take_left, ← List.drop_drop, List.drop_left,
    List.take_left, List.drop_left, hstart.read?_write, hstop.read?_write]
  simp [Timecode.ofDuration, Timecode.toMillis_ofMillis]

theorem readNumber?_toDigits (n : ℕ) : readNumber? (Nat.toDigits 10 n) = some n := by
  rw [readNumber?_of_isDigits (isDigits_toDigits n), digitsNumber_toDigits]

/-- A cue is read off the lines that it is written as. -/
theorem readCue?_cueBlock (number : ℕ) (segment : Segment) (rest : List Line) :
    format.readCue? (format.cueBlock number segment ++ rest) =
      some (format.cueOf number segment, rest) := by
  have htiming := readTiming?_timing format segment
  cases format with
  | srt => simp [cueBlock, numberLines, readCue?, readNumber?_toDigits, htiming, cueOf, Text.chars]
  | vtt => simp [cueBlock, numberLines, readCue?, htiming, cueOf, Text.chars]

/-- Cues with a blank line between are read one after the other. -/
theorem readCues?_cueBlocks (number : ℕ) {segments : List Segment} (h : segments ≠ []) :
    format.readCues? ([[]].intercalate (format.cueBlocks number segments)) =
      some (segments.mapIdx fun i segment => format.cueOf (number + i) segment) := by
  -- on the segments, for any number of the first
  induction segments generalizing number with
  | nil => contradiction
  | cons segment rest ih =>
    have hcue := readCue?_cueBlock format number segment
    rw [cueBlocks_cons]
    cases rest with
    | nil =>
      have hlast := hcue []
      rw [List.append_nil] at hlast
      show format.readCues? ([[]].intercalate [format.cueBlock number segment]) = _
      rw [List.intercalate_singleton, readCues?_of_last hlast]
      simp
    | cons next rest =>
      have hrest := ih (number + 1) (List.cons_ne_nil next rest)
      -- the cue leaves a blank line and the blocks of the others
      have hblank := hcue ([] :: [[]].intercalate (format.cueBlocks (number + 1) (next :: rest)))
      rw [List.intercalate_cons_of_ne_nil (by simp [cueBlocks]), List.append_assoc,
        List.singleton_append, readCues?_of_blank hblank, hrest]
      simp [List.mapIdx_cons, Nat.add_assoc, Nat.add_comm 1]

/-- What follows the header is read back, also if there are no cues. -/
theorem readBody?_cueBlocks (segments : List Segment) :
    format.readBody? ([[]].intercalate (format.cueBlocks 1 segments)) =
      some (segments.mapIdx fun i segment => format.cueOf (1 + i) segment) := by
  rcases eq_or_ne segments [] with rfl | hsome
  · rfl
  · have hcues := readCues?_cueBlocks format 1 hsome
    have hlines : [[]].intercalate (format.cueBlocks 1 segments) ≠ [] := by
      intro hnone
      -- no cue is read of nothing
      rw [hnone, readCues?] at hcues
      cases format <;> simp [readCue?] at hcues
    rw [readBody?, if_neg hlines, hcues]

/-- No line of a cue has a line break in it if its text has none. -/
theorem not_mem_cueBlock {number : ℕ} {segment : Segment} (h : '\n' ∉ segment.text.chars)
    {line : Line} (hline : line ∈ format.cueBlock number segment) : '\n' ∉ line := by
  rw [cueBlock, List.mem_append, List.mem_pair] at hline
  -- the number, the times and the text
  rcases hline with hnumber | rfl | rfl
  · cases format with
    | srt =>
      rw [List.mem_singleton.1 hnumber]
      intro hbreak
      exact absurd ((isDigits_toDigits number).2 _ hbreak) (by decide)
    | vtt => contradiction
  · exact not_mem_timing format segment
  · exact h

/-- No line that is written has a line break if no text has one. -/
theorem not_mem_of_mem_blocks {segments : List Segment}
    (h : ∀ segment ∈ segments, '\n' ∉ segment.text.chars) :
    ∀ line ∈ [[]].intercalate (format.headBlocks ++ format.cueBlocks 1 segments), '\n' ∉ line := by
  intro line hline
  rcases mem_of_mem_intercalate hline with hblank | ⟨block, hblock, hin⟩
  · rw [List.mem_singleton.1 hblank]
    exact List.not_mem_nil
  · rcases List.mem_append.1 hblock with hhead | hcue
    · cases format with
      | srt => contradiction
      | vtt =>
        rw [List.mem_singleton.1 hhead, List.mem_singleton] at hin
        rw [hin]
        decide
    · obtain ⟨i, hi, rfl⟩ := List.mem_mapIdx.1 hcue
      exact not_mem_cueBlock format (h _ (List.getElem_mem hi)) hin

/-- The cues that are written are read back, if no text has a line break. -/
theorem read?_write {segments : List Segment}
    (h : ∀ segment ∈ segments, '\n' ∉ segment.text.chars) :
    format.read? (format.write segments) =
      some (segments.mapIdx fun i segment => format.cueOf (1 + i) segment) := by
  have hlines := lines_unlines_of_not_mem (not_mem_of_mem_blocks format h)
  rw [← toList_write] at hlines
  have hbody := readBody?_cueBlocks format segments
  unfold read?
  rw [hlines]
  cases format with
  | srt => exact hbody
  | vtt =>
    -- the header is a block of its own, with a blank line behind it unless it is all
    rw [headBlocks, List.singleton_append]
    cases segments with
    | nil => rfl
    | cons segment rest =>
      rw [List.intercalate_cons_of_ne_nil (by simp [cueBlocks])]
      simpa using hbody

end Read

/-- Both formats are read back: one cue for each segment in order, with the positions to the nearest
millisecond and the text as it is, and in SubRip with the numbers from 1 on. -/
theorem reads_written (segments : List Segment)
    (h : ∀ segment ∈ segments, '\n' ∉ segment.text.chars) :
    srt.read? (srt.write segments) =
        some (segments.mapIdx fun i segment => {
          number := some (i + 1)
          start := (round (Double.value segment.start.millis)).toNat
          stop := (round (Double.value segment.stop.millis)).toNat
          text := segment.text.content }) ∧
      vtt.read? (vtt.write segments) =
        some (segments.map fun segment => {
          number := none
          start := (round (Double.value segment.start.millis)).toNat
          stop := (round (Double.value segment.stop.millis)).toNat
          text := segment.text.content }) := by
  have hmillis : ∀ position, (round (Double.value position.millis)).toNat =
      Timecode.nearestMillis position := by
    intro position
    -- the statement says what is nearest; the writer computes it
    rw [← Timecode.nearestMillis_eq_round, Int.toNat_natCast]
  simp only [hmillis]
  constructor
  · rw [read?_write srt h]
    simp only [cueOf, Nat.add_comm 1]
  · rw [read?_write vtt h]
    exact congrArg some (List.mapIdx_eq_iff.2 fun i => List.getElem?_map)

/-- Segments without text before and after one whose end is rounded up to the hour. -/
def captions : List Segment :=
  [Segment.simple 0 0.05 "" 0, Segment.simple 0.05 3599.9996 "it's\r late" 1,
    Segment.simple 3599.9996 86400 "" 2].filterMap (·.toOption)

/-- An hour that comes from rounding, texts that are empty, and a carriage return that stays in its
line. -/
theorem reads_captions :
    srt.read? (srt.write captions) = some [⟨some 1, 0, 50, ""⟩,
        ⟨some 2, 50, 3600000, "it's\r late"⟩, ⟨some 3, 3600000, 86400000, ""⟩] ∧
      vtt.read? (vtt.write captions) = some [⟨none, 0, 50, ""⟩,
        ⟨none, 50, 3600000, "it's\r late"⟩, ⟨none, 3600000, 86400000, ""⟩] := by
  obtain ⟨hsrt, hvtt⟩ := reads_written captions (by decide +kernel)
  rw [hsrt, hvtt]
  decide +kernel

end SubtitleFormat

end SpeechTranscript
