import SpeechTranscript.Proofs.Duration
import SpeechTranscript.Segment.Interval

/-!
# Facts about segments

What the time shared by two segments is as a number, what the rules for building a segment promise
of its length, and when one can be built.

* `number_overlap`: the shared time, the same from either side.
* `long_enough_of_spoken`: a segment with text lasts at least a tenth of a second.
* `exists_build_iff`: a segment needs room for its text, and nothing else.
-/

namespace SpeechTranscript.Segment

open Double

/-! ## Shared time -/

section Overlap

variable (a b : Segment)

/-- The time that two segments share runs from the later start to the earlier end. -/
theorem overlap_eq_sub :
    (a.overlap b).number =
      (Duration.earlier a.stop b.stop - Duration.later a.start b.start).number := by
  have horder := Duration.le_iff (.earlier a.stop b.stop) (.later a.start b.start)
  unfold overlap
  dsimp only
  split
  · rename_i h
    rw [Duration.number_sub]
    -- apart from each other they share nothing, and the difference is cut at zero
    have hneg := rounded_mono (sub_nonpos.2 (horder.1 h))
    rw [rounded_zero] at hneg
    exact Duration.value_zero.trans (max_eq_left hneg).symm
  · rfl

/-- The overlap is the length of what two segments share, and zero if that is negative. -/
theorem number_overlap :
    (a.overlap b).number = max 0
      (rounded (min a.stop.number b.stop.number - max a.start.number b.start.number)) := by
  rw [overlap_eq_sub, Duration.number_sub, Duration.number_earlier, Duration.number_later]

theorem number_overlap_comm : (a.overlap b).number = (b.overlap a).number := by
  rw [number_overlap, number_overlap, min_comm, max_comm a.start.number]

end Overlap

/-! ## Length -/

section Length

variable {s : Segment}

theorem start_le_stop : s.start ≤ s.stop := Duration.le_of_lt s.start_lt_stop

theorem seconds_duration : s.duration.seconds = s.stop.seconds - s.start.seconds :=
  Duration.seconds_sub_of_le start_le_stop

/-- A duration with the slack is a number. -/
theorem isFinite_add_timeSlack (d : Duration) : (d.seconds + timeSlack).isFinite = true :=
  (Duration.value_seconds_add d .slack).1

/-- A segment with text lasts as long as speech does, up to the slack. -/
theorem long_enough_of_spoken (h : s.isEmpty = false) :
    shortestSpeech ≤ s.duration.seconds + timeSlack := by
  have hlong : tooShortForSpeech s.start s.stop = false := by
    cases hshort : tooShortForSpeech s.start s.stop with
    | false => rfl
    | true =>
      have hblank : s.isEmpty = true := s.blank_of_short hshort
      rw [h] at hblank
      contradiction
  rw [tooShortForSpeech, ← seconds_duration, decide_eq_false_iff_not] at hlong
  have hfinite := isFinite_add_timeSlack s.duration
  have hspeech : shortestSpeech.isFinite = true := by decide +kernel
  -- both sides are finite, so what is not less is greater or equal
  rw [lt_iff hfinite hspeech, not_lt] at hlong
  exact (le_iff hspeech hfinite).2 hlong

/-- How long a stretch is after rounding, with the slack. -/
theorem add_timeSlack_lt_iff (d : Duration) : d.seconds + timeSlack < shortestSpeech ↔
    rounded (d.number + Duration.slack.number) < value shortestSpeech := by
  obtain ⟨hfinite, hvalue⟩ := Duration.value_seconds_add d .slack
  rw [← hvalue]
  exact lt_iff hfinite (by decide +kernel)

/-- Too short is what is shorter than the shortest speech by more than the slack. -/
theorem tooShortForSpeech_iff_lt {start stop : Duration} (h : start ≤ stop) :
    tooShortForSpeech start stop = true ↔ (stop - start).seconds + timeSlack < shortestSpeech := by
  rw [tooShortForSpeech, decide_eq_true_iff, Duration.seconds_sub_of_le h]

/-- A part of a stretch that is too short for text is too short for it too. -/
theorem tooShortForSpeech_of_part {start start' stop stop' : Duration} (hstart : start ≤ start')
    (hpart : start' ≤ stop') (hstop : stop' ≤ stop) (h : tooShortForSpeech start stop = true) :
    tooShortForSpeech start' stop' = true := by
  have hwhole : start ≤ stop := by
    rw [Duration.le_iff] at hstart hpart hstop ⊢
    linarith
  rw [tooShortForSpeech_iff_lt hwhole, add_timeSlack_lt_iff] at h
  rw [tooShortForSpeech_iff_lt hpart, add_timeSlack_lt_iff]
  refine (rounded_mono ?_).trans_lt h
  rw [Duration.number_sub, Duration.number_sub]
  rw [Duration.le_iff] at hstart hstop
  exact add_le_add_left (max_le_max le_rfl (rounded_mono (sub_le_sub hstop hstart))) _

end Length

/-! ## Building -/

section Build

variable {id : String} {start stop : Duration} {text : Text} {confidence : Confidence}
  {sequence : UInt32} {s : Segment}

/-- What is built has the parts it is built from. -/
theorem build_eq_ok (h : build id start stop text confidence sequence = .ok s) :
    s.start = start ∧ s.stop = stop ∧ s.text = text ∧ s.sequence = sequence := by
  unfold build at h
  split at h
  · split at h
    · cases h
      exact ⟨rfl, rfl, rfl, rfl⟩
    · contradiction
  · contradiction

/-- A segment has the score that it is built with. -/
theorem confidence_of_build (h : build id start stop text confidence sequence = .ok s) :
    s.confidence = confidence := by
  unfold build at h
  split at h
  · split at h
    · cases h
      rfl
    · contradiction
  · contradiction

/-- A segment is built if its ends are in order and there is room for its text. -/
theorem build_of_room (order : start < stop)
    (room : tooShortForSpeech start stop = true → text.isEmpty = true) :
    build id start stop text confidence sequence =
      .ok ⟨id, start, stop, text, confidence, sequence, none, none, order, room⟩ := by
  rw [build, dif_pos order, dif_pos room]

/-- A segment can be built if it starts before it ends and has no text that it is too short for. -/
theorem exists_build_iff :
    (∃ s, build id start stop text confidence sequence = .ok s) ↔
      start < stop ∧ (tooShortForSpeech start stop = true → text.isEmpty = true) := by
  constructor
  · rintro ⟨s, h⟩
    obtain ⟨rfl, rfl, rfl, -⟩ := build_eq_ok h
    exact ⟨s.start_lt_stop, s.blank_of_short⟩
  · rintro ⟨order, room⟩
    exact ⟨_, build_of_room order room⟩

/-- What starts before it ends can only be too short. -/
theorem build_eq_error {refusal : Refusal} (order : start < stop)
    (h : build id start stop text confidence sequence = .error refusal) :
    refusal = .segmentTooShort (stop.seconds - start.seconds) := by
  rw [build, dif_pos order] at h
  split at h
  · contradiction
  · cases h
    rfl

/-- A text can be made final unless it is too long. -/
theorem finalized_eq (content : String) : Text.finalized content =
    if content.length ≤ longestText then .ok ⟨content, true⟩
    else .error (.textTooLong content.length) := rfl

/-- A text that is final is the text it was made from. -/
theorem content_of_finalized {content : String} (h : Text.finalized content = .ok text) :
    text.content = content := by
  rw [finalized_eq] at h
  split at h
  · cases h
    rfl
  · contradiction

end Build

end SpeechTranscript.Segment
