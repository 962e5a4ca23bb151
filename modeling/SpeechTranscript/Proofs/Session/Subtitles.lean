import SpeechTranscript.Export.Basic
import SpeechTranscript.Proofs.Session.Separation
import SpeechTranscript.Proofs.Subtitle.Clock
import SpeechTranscript.Proofs.Timeline.Reliability

/-!
# Subtitles in order

The segments of a session are in the order in which they start, and one with text lasts longer than
rounding to the millisecond can hide. So the cues of its subtitles start in order, by the clock and
as texts, and none of them ends before it starts.

* `Timed`: a subtitle file whose cues are in order.
* `timed_write`: the file of segments in order.
* `timed_exportAs`: the subtitles of every completed session.
-/

namespace SpeechTranscript

/-- A segment with text starts well before it stops. -/
theorem Segment.number_start_add_le (s : Segment) (h : s.isEmpty = false) :
    s.start.number + 1 / 64 ≤ s.stop.number := by
  have hduration := number_duration_of_spoken h
  rw [duration, Duration.number_sub] at hduration
  have hlong : 1 / 32 ≤ Double.rounded (s.stop.number - s.start.number) :=
    (le_max_iff.1 hduration).resolve_left (by norm_num)
  by_contra hshort
  have hgrid : Double.rounded (1 / 64) = 1 / 64 :=
    Double.rounded_eq_self ⟨1, -6, by norm_num, by norm_num, by norm_num⟩
  have hle : Double.rounded (s.stop.number - s.start.number) ≤ 1 / 64 := by
    rw [← hgrid]
    exact Double.rounded_mono (by linarith)
  linarith

namespace SubtitleFormat

/-! ## Files -/

/-- The format as one that a session can be exported in. -/
def exported : SubtitleFormat → ExportFormat
  | .srt => .srt
  | .vtt => .vtt

/-- A cue as it stands in a file. -/
structure WrittenCue where
  start : String
  stop : String
  text : String

/-- The lines of a cue. -/
def WrittenCue.block (cue : WrittenCue) (number : ℕ) : SubtitleFormat → String
  | .srt => toString number ++ "\n" ++ cue.start ++ " --> " ++ cue.stop ++ "\n" ++ cue.text ++ "\n"
  | .vtt => cue.start ++ " --> " ++ cue.stop ++ "\n" ++ cue.text ++ "\n"

/-- A text that shows a position to the nearest millisecond, in fields of two digits each for hours,
minutes and seconds and of three for milliseconds. -/
def Shows (format : SubtitleFormat) (text : String) (position : Duration) : Prop :=
  ∃ t : Timecode, t.OnClock ∧ Timecode.read? format.millisMark text.toList = some t ∧
    (t.toMillis : ℤ) = round (Double.value position.millis)

/-- A cue shows when its segment starts and stops. It does not stop before it starts, and not at
once if there is text. -/
structure WrittenCue.Tells (cue : WrittenCue) (format : SubtitleFormat) (segment : Segment) :
    Prop where
  text_eq : cue.text = segment.text.content
  start : format.Shows cue.start segment.start
  stop : format.Shows cue.stop segment.stop
  start_le_stop : cue.start ≤ cue.stop ∧
    round (Double.value segment.start.millis) ≤ round (Double.value segment.stop.millis)
  start_lt_stop : segment.isEmpty = false → cue.start < cue.stop ∧
    round (Double.value segment.start.millis) < round (Double.value segment.stop.millis)

/-- A file with one cue for each segment, none of which starts before the one before it. -/
structure Timed (format : SubtitleFormat) (segments : List Segment) (file : String)
    (cues : List WrittenCue) : Prop where
  file_eq : file =
    "\n".intercalate (format.header ++ cues.mapIdx fun i cue => cue.block (i + 1) format)
  tells : List.Forall₂ (fun cue segment => cue.Tells format segment) cues segments
  /-- The starts are in order as the cues show them, -/
  times_ordered : segments.Pairwise fun former latter =>
    round (Double.value former.start.millis) ≤ round (Double.value latter.start.millis)
  /-- and as the texts that they are. -/
  texts_ordered : cues.Pairwise (·.start ≤ ·.start)

section Timed

variable (format : SubtitleFormat)

/-- A time is written as the text of its milliseconds. -/
theorem shows_time (position : Duration) : format.Shows (format.time position) position := by
  have hclock := Timecode.onClock_ofDuration position
  refine ⟨Timecode.ofDuration position, hclock, ?_, ?_⟩
  · rw [time, String.toList_ofList]
    exact hclock.read?_write _
  · rw [Timecode.ofDuration, Timecode.toMillis_ofMillis, Timecode.nearestMillis_eq_round]

/-- Times are in order as texts exactly if their milliseconds are as numbers. -/
theorem time_le_time_iff (a b : Duration) :
    format.time a ≤ format.time b ↔ Timecode.nearestMillis a ≤ Timecode.nearestMillis b := by
  rw [String.le_iff_toList_le, time, time, String.toList_ofList, String.toList_ofList,
    (Timecode.onClock_ofDuration a).write_le_write_iff (Timecode.onClock_ofDuration b),
    Timecode.ofDuration, Timecode.ofDuration, Timecode.toMillis_ofMillis,
    Timecode.toMillis_ofMillis]

theorem time_lt_time_iff (a b : Duration) :
    format.time a < format.time b ↔ Timecode.nearestMillis a < Timecode.nearestMillis b := by
  rw [← not_le, ← not_le, time_le_time_iff]

/-- The cue that a segment is written as. -/
def writtenCue (segment : Segment) : WrittenCue :=
  ⟨format.time segment.start, format.time segment.stop, segment.text.content⟩

theorem block_writtenCue (segment : Segment) (number : ℕ) :
    (format.writtenCue segment).block number format = format.cue number segment := by
  cases format <;> simp [WrittenCue.block, writtenCue, cue, timing, String.append_assoc]

/-- A cue tells of its segment. -/
theorem tells_writtenCue (segment : Segment) :
    (format.writtenCue segment).Tells format segment where
  text_eq := rfl
  start := format.shows_time _
  stop := format.shows_time _
  start_le_stop := by
    have h := Timecode.nearestMillis_mono segment.start_le_stop
    rw [← Timecode.nearestMillis_eq_round, ← Timecode.nearestMillis_eq_round, Nat.cast_le]
    exact ⟨(format.time_le_time_iff _ _).2 h, h⟩
  start_lt_stop hspoken := by
    have h := Timecode.nearestMillis_lt (segment.number_start_add_le hspoken)
    rw [← Timecode.nearestMillis_eq_round, ← Timecode.nearestMillis_eq_round, Nat.cast_lt]
    exact ⟨(format.time_lt_time_iff _ _).2 h, h⟩

/-- Segments in order give cues in order. -/
theorem timed_write {segments : Timeline} (h : segments.Ordered) :
    format.Timed segments (format.write segments) (segments.map format.writtenCue) where
  file_eq := by
    -- cues are numbered from one in the order of the segments
    have hcues : format.cuesFrom 1 segments =
        (segments.map format.writtenCue).mapIdx fun i cue => cue.block (i + 1) format :=
      List.ext_getElem (by simp [cuesFrom]) fun i _ _ => by
        simp [cuesFrom, block_writtenCue, Nat.add_comm]
    rw [write, hcues]
  tells := List.forall₂_map_left_iff.2 (List.forall₂_same.2 fun segment _ =>
    format.tells_writtenCue segment)
  times_ordered := h.imp fun hle => by
    rw [← Timecode.nearestMillis_eq_round, ← Timecode.nearestMillis_eq_round, Nat.cast_le]
    exact Timecode.nearestMillis_mono hle
  texts_ordered := List.pairwise_map.2 (h.imp fun hle =>
    (format.time_le_time_iff _ _).2 (Timecode.nearestMillis_mono hle))

end Timed

end SubtitleFormat

namespace Session

/-- The subtitles of every completed session are in order. -/
theorem timed_exportAs (id audioId : String) (language : Language) (parameters : Parameters)
    (steps : List (Instant × Command)) (format : SubtitleFormat) (encoder : Option Encoder)
    (hs : (((new id audioId language).withParameters parameters).run steps).status = .completed) :
    ∃ file cues, (((new id audioId language).withParameters parameters).run steps).exportAs
        format.exported encoder = .ok file ∧
      format.Timed (((new id audioId language).withParameters parameters).run steps).segments file
        cues := by
  -- sessions keep their segments in order, which is all that is needed
  have hordered : (((new id audioId language).withParameters parameters).run
      steps).segments.Ordered := ordered_run Timeline.ordered_nil steps
  refine ⟨_, _, ?_, format.timed_write hordered⟩
  unfold exportAs
  rw [if_pos hs]
  cases format <;> rfl

/-- Segments that come out of order, one without text, and the last one at the end of the day. -/
def captioned : List (Instant × Command) :=
  [(⟨0⟩, .start none ""), (⟨0⟩, .add (spoken 3599.9996 86400 "late" 1 (by decide +kernel))),
    (⟨0⟩, .add (spoken 0 0.0004 "" 0 (by decide +kernel))),
    (⟨0⟩, .add (spoken 1.2 1.3 "soon" 2 (by decide +kernel))), (⟨1⟩, .complete)]

theorem timed_captioned :
    ∃ file cues, (((new "s" "audio" .auto).withParameters .empty).run captioned).exportAs
        .srt none = .ok file ∧
      SubtitleFormat.srt.Timed
        (((new "s" "audio" .auto).withParameters .empty).run captioned).segments file cues :=
  timed_exportAs "s" "audio" .auto .empty captioned .srt none (by decide +kernel)

end Session

end SpeechTranscript
