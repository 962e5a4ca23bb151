import SpeechTranscript.Proofs.Session.Effect
import SpeechTranscript.Proofs.Timeline.Groups

/-!
# The order of a session's segments

Through all runs the segments of a session stand in the order of their starts, and each of them is
one that could be built. So the search for the place of a new segment finds it.

* `ordered_run`: the segments are in order after every run.
* `orderly_run`: they are well formed too, and a segment that is added is put in its place.
-/

namespace SpeechTranscript.Session

/-- A segment as the rules for building one have it. -/
structure WellFormed (segment : Segment) : Prop where
  start_lt_stop : segment.start < segment.stop
  start_mem : 0 ≤ segment.start.seconds ∧ segment.start.seconds ≤ longestSeconds
  stop_mem : 0 ≤ segment.stop.seconds ∧ segment.stop.seconds ≤ longestSeconds
  /-- There is no text in less time than speech takes. -/
  long_enough : segment.isEmpty = false → shortestSpeech ≤ segment.duration.seconds + timeSlack

/-- A session with its segments in order, where a segment that is added goes behind all that start
earlier and in front of all others. -/
structure Orderly (s : Session) : Prop where
  ordered : s.segments.Ordered
  wellFormed : ∀ segment ∈ s.segments, WellFormed segment
  placed : ∀ segment next, addSegment segment s = .ok () next →
    ∃ earlier later : Timeline, s.segments = earlier ++ later ∧
      next.segments = earlier ++ segment :: later ∧
      (∀ other ∈ earlier, other.start < segment.start) ∧
      ∀ other ∈ later, ¬ other.start < segment.start

/-- Every segment is well formed: there is no other way to build one. -/
theorem wellFormed (segment : Segment) : WellFormed segment where
  start_lt_stop := segment.start_lt_stop
  start_mem := ⟨segment.start.nonneg, segment.start.le_longest⟩
  stop_mem := ⟨segment.stop.nonneg, segment.stop.le_longest⟩
  long_enough := Segment.long_enough_of_spoken

section Order

variable {s next : Session} {now : Instant} {command : Command} {segment : Segment}

theorem Effect.ordered (h : Effect now s command next) (hs : s.segments.Ordered) :
    next.segments.Ordered := by
  refine h.segments_invariant hs Timeline.ordered_nil ?_ ?_
  · intro t segment t' ht haccept
    obtain ⟨-, rfl⟩ := Timeline.accept_eq_ok_iff.1 haccept
    exact ht.place
  · intro gap segments _ hmerge
    exact hs.mergeAdjacent hmerge

/-- The segments are in order after every run. -/
theorem ordered_run (hs : s.segments.Ordered) (steps : List (Instant × Command)) :
    (s.run steps).segments.Ordered :=
  run_invariant (P := fun s => s.segments.Ordered) hs (fun h heffect => heffect.ordered h) steps

/-- Order is all that the search for the place of a segment needs. -/
theorem orderly_of_ordered (hs : s.segments.Ordered) : Orderly s where
  ordered := hs
  wellFormed := fun segment _ => wellFormed segment
  placed := fun segment next h => by
    -- the time of day is not looked at
    have heffect : Effect ⟨0⟩ s (.add segment) next := effect_of_perform h
    cases heffect with
    | add processing accepted =>
      obtain ⟨-, rfl⟩ := Timeline.accept_eq_ok_iff.1 accepted
      exact hs.place_eq segment

/-- A new session is orderly after every run. -/
theorem orderly_run (id audioId : String) (language : Language) (parameters : Parameters)
    (steps : List (Instant × Command)) :
    Orderly (((new id audioId language).withParameters parameters).run steps) :=
  orderly_of_ordered (ordered_run Timeline.ordered_nil steps)

end Order

end SpeechTranscript.Session
