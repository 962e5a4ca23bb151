import SpeechTranscript.Proofs.Session.History
import SpeechTranscript.Proofs.Timeline.Groups

/-!
# What holds of all segments of a session

The segments of a session are the accepted ones, or made of them by merging. So a property that the
merging of two segments preserves holds of all of them if it holds of those that are accepted.

* `Effect.forall_segments`: the segments after one step.
* `forall_segments_run`: the segments after a run.
-/

namespace SpeechTranscript.Session

section Segments

variable {s next : Session} {now : Instant} {command : Command} {P : Segment → Prop}

/-- Nothing comes onto a timeline but the segments of the batch. -/
theorem mem_of_stage {recording : Option Duration} {timeline : Timeline} {batch : List Segment}
    {staged : Timeline × List Happening} (h : stage recording timeline batch = .ok staged) :
    ∀ segment ∈ staged.1, segment ∈ timeline ∨ segment ∈ batch := by
  obtain ⟨-, rfl⟩ := stage_eq_ok_iff.1 h
  intro segment hsegment
  exact (List.mem_append.1 ((Timeline.placed_perm timeline batch).mem_iff.1 hsegment)).symm

/-- An effect puts no other segments on the timeline than those of its command, and those made by
merging. -/
theorem Effect.forall_segments (h : Effect now s command next)
    (merge : ∀ {gap a b united}, P a → P b → a.mergeWithin b gap = .ok united → P united)
    (hs : ∀ segment ∈ s.segments, P segment) (hcommand : ∀ segment ∈ command.segments, P segment) :
    ∀ segment ∈ next.segments, P segment := by
  cases h with
  | start pending => exact fun _ hmem => absurd hmem List.not_mem_nil
  | @add segment segments processing accepted =>
    obtain ⟨-, rfl⟩ := Timeline.accept_eq_ok_iff.1 accepted
    intro other hother
    -- what is on the timeline is the new segment or was there before
    rcases Timeline.mem_place.1 hother with rfl | hthere
    · exact hcommand _ (List.mem_singleton_self _)
    · exact hs other hthere
  | addAll processing staged =>
    rw [foldl_record]
    intro segment hsegment
    exact (mem_of_stage staged segment hsegment).elim (hs segment) (hcommand segment)
  | merge processing many merged => exact Timeline.forall_mergeAdjacent merge hs merged
  | mergeFew | complete | failLate | fail | cancel | drain => exact hs

/-- What holds of the segments at first and of all that are accepted in a run holds of the segments
after it. -/
theorem forall_segments_run
    (merge : ∀ {gap a b united}, P a → P b → a.mergeWithin b gap = .ok united → P united)
    (hs : ∀ segment ∈ s.segments, P segment) {steps : List (Instant × Command)}
    (h : ∀ segment ∈ accepted s steps, P segment) :
    ∀ segment ∈ (s.run steps).segments, P segment := by
  induction steps generalizing s with
  | nil => exact hs
  | cons step rest ih =>
    obtain ⟨hstep, hrest⟩ := List.forall_mem_append.1 h
    refine ih ?_ hrest
    rcases after_cases s step with ⟨hok, heffect⟩ | ⟨-, hsame⟩
    · -- a step that is carried out accepts all segments of its command
      have hout : s.carriesOut step = true := by rw [carriesOut, hok]
      rw [acceptedIn, if_pos hout] at hstep
      exact heffect.forall_segments merge hs hstep
    · rw [hsame]
      exact hs

end Segments

end SpeechTranscript.Session
