import SpeechTranscript.Proofs.Session.Consistency
import SpeechTranscript.Proofs.Session.Segments
import SpeechTranscript.Proofs.Session.Separation
import SpeechTranscript.Proofs.Timeline.Reliability

/-!
# Reliable sessions

If every segment that a session accepts is reliable, so is every segment it ever holds, however
often segments are merged, and so is its confidence as long as it holds any. Its quality is then a
matter of everything else that is asked of it.

* `reliable_run`: the segments, the confidence and the quality after every run.
-/

namespace SpeechTranscript.Session

/-- What is asked of a session for its quality, apart from the confidence. -/
def passesOtherwise (s : Session) : Bool :=
  s.status == .completed && s.finalText.any (fun text => !text.isEmpty && 1 ≤ text.wordCount) &&
    !s.segments.isEmpty && s.segments.all goodLength

section Reliable

variable {s : Session}

theorem passesQuality_eq_and (s : Session) :
    s.passesQuality = (s.confidence.isReliable && s.passesOtherwise) := by
  unfold passesQuality passesOtherwise
  cases s.confidence.isReliable
  · simp only [Bool.and_false, Bool.false_and]
  · simp only [Bool.and_true, Bool.true_and]

/-- The quality of a session that is reliable as soon as it has segments. -/
theorem passesQuality_eq_passesOtherwise
    (h : s.segments ≠ [] → s.confidence.isReliable = true) :
    s.passesQuality = s.passesOtherwise := by
  rw [passesQuality_eq_and]
  by_cases hnone : s.segments = []
  · have hfails : s.passesOtherwise = false := by
      rw [passesOtherwise, hnone]
      simp only [List.isEmpty_nil, Bool.not_true, Bool.and_false, Bool.false_and]
    rw [hfails, Bool.and_false]
  · rw [h hnone, Bool.true_and]

/-- Confidence is not averaged away: if all segments accepted in a run of a new session are
reliable, so are all that it holds after the run, and so is the confidence over them. The quality
does not fail for want of confidence. -/
theorem reliable_run (id audioId : String) (language : Language) (parameters : Parameters)
    (steps : List (Instant × Command))
    (h : ∀ segment ∈ accepted ((new id audioId language).withParameters parameters) steps,
      segment.confidence.isReliable = true ∧ segment.isEmpty = false) :
    let s := ((new id audioId language).withParameters parameters).run steps
    (∀ segment ∈ s.segments, segment.confidence.isReliable = true ∧ segment.isEmpty = false) ∧
      (s.segments ≠ [] → s.confidence.isReliable = true) ∧
      s.passesQuality = s.passesOtherwise := by
  intro s
  -- merging is the only step that makes a new score
  have hreliable : s.segments.Reliable := by
    refine forall_segments_run (P := fun segment => segment.isReliable = true) ?_ ?_ ?_
    · exact fun ha hb hunited => Segment.isReliable_mergeWithin hunited ha hb
    · exact fun segment hmem => absurd hmem List.not_mem_nil
    · exact fun segment hmem => Segment.isReliable_iff.2 (h segment hmem)
  have hconfidence : s.segments ≠ [] → s.confidence.isReliable = true := fun hsome => by
    obtain ⟨reason, hconsistent⟩ :=
      (Consistent.new id audioId language parameters).exists_run steps
    rw [hconsistent.confidence_eq]
    exact hreliable.isReliable_confidence hsome
  exact ⟨fun segment hmem => Segment.isReliable_iff.1 (hreliable segment hmem), hconfidence,
    passesQuality_eq_passesOtherwise hconfidence⟩

/-- A segment that is just reliable. -/
def murmured (start stop : Float) (text : String) (sequence : UInt32)
    (h : (Segment.simple start stop text sequence).toOption.isSome = true) : Segment :=
  { spoken start stop text sequence h with confidence := ⟨0.5⟩ }

/-- Segments of different lengths that are merged twice. -/
def murmuring : List (Instant × Command) :=
  [(⟨0⟩, .start none ""), (⟨0⟩, .add (murmured 0 0.3 "a" 0 (by decide +kernel))),
    (⟨0⟩, .add (murmured 0.3 1 "b" 1 (by decide +kernel))), (⟨0⟩, .merge 100),
    (⟨0⟩, .add (murmured 1.05 7.7 "c" 2 (by decide +kernel))), (⟨0⟩, .merge 100),
    (⟨0⟩, .complete)]

theorem reliable_murmuring :
    (((new "s" "audio" .auto).withParameters .empty).run murmuring).segments ≠ [] ∧
      (((new "s" "audio" .auto).withParameters .empty).run murmuring).confidence.isReliable ∧
      (((new "s" "audio" .auto).withParameters .empty).run murmuring).passesQuality = true := by
  obtain ⟨-, hconfidence, hquality⟩ :=
    reliable_run "s" "audio" .auto .empty murmuring (by decide +kernel)
  have hsome : (((new "s" "audio" .auto).withParameters .empty).run murmuring).segments ≠ [] := by
    decide +kernel
  refine ⟨hsome, hconfidence hsome, hquality.trans ?_⟩
  decide +kernel

end Reliable

end SpeechTranscript.Session
