import SpeechTranscript.Proofs.Session.Consistency
import SpeechTranscript.Proofs.Session.Separation
import SpeechTranscript.Proofs.Text.Formatting
import SpeechTranscript.Proofs.Text.Words

/-!
# The quality of a session

A session passes the check of its quality if it is completed and reliable, if its final text has
words, and if none of its segments is too long. The check asks for more: there have to be segments,
and none of them may be too short for its text. But a session is not completed without segments, and
a segment that is too short for text is built with none, by the same measure of its length.

* `Reachable`: the sessions that there can be.
* `goodLength_eq`: what the check asks of a segment.
* `quality_reachable`: what it asks of a session.
-/

namespace SpeechTranscript

/-- A text with a word is not blank. -/
theorem Text.isEmpty_of_wordCount_pos {t : Text} (h : 1 ≤ t.wordCount) : t.isEmpty = false := by
  obtain ⟨word, hword⟩ := List.exists_mem_of_length_pos h
  obtain ⟨hsome, hplain⟩ := isWord_of_mem_words hword
  obtain ⟨c, hc⟩ := List.exists_mem_of_ne_nil word hsome
  have hkept : c ∈ (words t.chars).flatten := List.mem_flatten_of_mem hword hc
  rw [flatten_words] at hkept
  refine Bool.eq_false_of_not_eq_true fun hblank => ?_
  have hc' := List.all_eq_true.1 hblank c (List.mem_of_mem_filter hkept)
  rw [hplain c hc] at hc'
  contradiction

namespace Session

/-! ## Reachable sessions -/

/-- The sessions that new ones become. A step may be refused, and the parameters may be given at any
time; giving one more is giving them all again. -/
inductive Reachable : Session → Prop where
  | new (id audioId : String) (language : Language) : Reachable (new id audioId language)
  | after {s : Session} (h : Reachable s) (now : Instant) (command : Command) :
      Reachable (s.after (now, command))
  | withParameters {s : Session} (h : Reachable s) (parameters : Parameters) :
      Reachable (s.withParameters parameters)

section Reachable

variable {s : Session} {reason : Option String}

theorem Reachable.withParameter (h : Reachable s) (name value : String) :
    Reachable (s.withParameter name value) :=
  h.withParameters _

theorem Reachable.run (h : Reachable s) (steps : List (Instant × Command)) :
    Reachable (s.run steps) := by
  induction steps generalizing s with
  | nil => exact h
  | cons step rest ih => exact ih (h.after step.1 step.2)

/-- Nothing is told from the parameters. -/
theorem Consistent.withParameters (h : Consistent reason s) (parameters : Parameters) :
    Consistent reason (s.withParameters parameters) where
  confidence_eq := h.confidence_eq
  fullText_eq := h.fullText_eq
  finalText_iff := h.finalText_iff
  finished_iff := h.finished_iff
  errorCode_iff := h.errorCode_iff
  message_of_failed := h.message_of_failed
  no_message := h.no_message
  message_of_cancelled := h.message_of_cancelled
  started := h.started
  segments_of_completed := h.segments_of_completed
  pending := h.pending
  no_reason := h.no_reason

/-- The fields of every reachable session agree. -/
theorem Reachable.exists_consistent (h : Reachable s) : ∃ reason, Consistent reason s := by
  induction h with
  | new id audioId language => exact ⟨none, .new id audioId language .empty⟩
  | @after s _ now command ih =>
    obtain ⟨reason, hconsistent⟩ := ih
    exact hconsistent.exists_run [(now, command)]
  | withParameters _ parameters ih =>
    obtain ⟨reason, hconsistent⟩ := ih
    exact ⟨reason, hconsistent.withParameters parameters⟩

end Reachable

/-! ## The check -/

section Quality

variable {s : Session}

/-- No segment is too short for its text. -/
theorem not_short (segment : Segment) :
    ¬ (segment.duration.seconds + timeSlack < shortestSpeech ∧ segment.isEmpty = false) := by
  rintro ⟨hshort, hspoken⟩
  have hlong := Segment.long_enough_of_spoken hspoken
  have hfinite := Segment.isFinite_add_timeSlack segment.duration
  have hspeech : shortestSpeech.isFinite = true := by decide +kernel
  rw [Double.lt_iff hfinite hspeech] at hshort
  rw [Double.le_iff hspeech hfinite] at hlong
  exact absurd hshort hlong.not_gt

/-- The length of a segment is good unless it is too long. -/
theorem goodLength_eq (segment : Segment) :
    goodLength segment = decide (segment.duration.seconds ≤ longestGoodSegment) := by
  have hroom : (decide (segment.duration.seconds + timeSlack < shortestSpeech) &&
      !segment.isEmpty) = false := by
    refine Bool.eq_false_of_not_eq_true fun hshort => not_short segment ?_
    rwa [Bool.and_eq_true, decide_eq_true_iff, Bool.not_eq_true'] at hshort
  rw [goodLength, hroom, Bool.not_false, Bool.and_true]

theorem any_worded_iff : (s.finalText.any fun text => !text.isEmpty && 1 ≤ text.wordCount) = true ↔
    ∃ text, s.finalText = some text ∧ 1 ≤ text.wordCount := by
  rw [Option.any_eq_true]
  refine exists_congr fun text => and_congr_right fun _ => ?_
  rw [Bool.and_eq_true, decide_eq_true_iff, Bool.not_eq_true']
  exact and_iff_right_of_imp Text.isEmpty_of_wordCount_pos

/-- A session passes if it is completed, reliable and not without words, and no segment is too long.
That there are segments, and none too short for its text, is true of every session there can be, as
soon as it is completed. -/
theorem quality_reachable (h : Reachable s) :
    (s.passesQuality = true ↔
      s.status = .completed ∧ 0.5 ≤ s.confidence.value ∧
        (∃ text, s.finalText = some text ∧ 1 ≤ text.wordCount) ∧
        ∀ segment ∈ s.segments, segment.duration.seconds ≤ 30) ∧
      (s.status = .completed → s.segments ≠ []) ∧
      ∀ segment ∈ s.segments,
        ¬ (segment.duration.seconds + timeSlack < shortestSpeech ∧ segment.isEmpty = false) := by
  obtain ⟨reason, hconsistent⟩ := h.exists_consistent
  refine ⟨?_, hconsistent.segments_of_completed, fun segment _ => not_short segment⟩
  -- a segment of good length is one that is not too long, as it cannot be too short
  have hlength : s.segments.all goodLength = true ↔
      ∀ segment ∈ s.segments, segment.duration.seconds ≤ 30 := by
    rw [List.all_eq_true]
    refine forall₂_congr fun segment _ => ?_
    rw [goodLength_eq, decide_eq_true_iff]
    rfl
  have hreliable : s.confidence.isReliable = true ↔ 0.5 ≤ s.confidence.value := decide_eq_true_iff
  rw [passesQuality, Bool.and_eq_true, Bool.and_eq_true, Bool.and_eq_true, Bool.and_eq_true,
    beq_iff_eq, hreliable, any_worded_iff, hlength, Bool.not_eq_true', List.isEmpty_eq_false_iff]
  constructor
  · rintro ⟨⟨⟨⟨hcompleted, hconfident⟩, hworded⟩, -⟩, hshort⟩
    exact ⟨hcompleted, hconfident, hworded, hshort⟩
  · -- that there are segments follows from the status
    rintro ⟨hcompleted, hconfident, hworded, hshort⟩
    exact ⟨⟨⟨⟨hcompleted, hconfident⟩, hworded⟩, hconsistent.segments_of_completed hcompleted⟩,
      hshort⟩

/-- A session with a segment as long as one may be and a silence that is too short for text. -/
def measured : Session :=
  (((new "s" "audio" .auto).run [(⟨0⟩, .start none "")]).withParameter "beam" "5").run
    [(⟨0⟩, .add (spoken 0 30 "a" 0 (by decide +kernel))),
      (⟨0⟩, .add (spoken 30 30.01 " " 1 (by decide +kernel))), (⟨0⟩, .complete)]

theorem quality_measured : Reachable measured ∧ measured.passesQuality = true := by
  have hreachable : Reachable measured :=
    (((Reachable.new "s" "audio" .auto).run _).withParameter "beam" "5").run _
  refine ⟨hreachable, (quality_reachable hreachable).1.2 ⟨?_, ?_, ?_, ?_⟩⟩
  · decide +kernel
  · decide +kernel
  · exact ⟨⟨"A", true⟩, by decide +kernel, by decide +kernel⟩
  · decide +kernel

end Quality

end Session

end SpeechTranscript
