import SpeechTranscript.Proofs.Double.Halves
import SpeechTranscript.Proofs.Timeline.Groups

/-!
# Adjacent stretches

Two stretches are adjacent if the smaller one of two distances is within the gap: that from the end
of the first to the start of the second, and that from the end of the second to the start of the
first. The gap may be any double, also an infinite one or none at all. In a timeline the first
stretch starts first. So a later end of the second one cannot bring the two any closer, and once a
merge has found two neighbours too far apart for it they stay so, whatever else it does to them.

* `adjacentStretches_iff`: adjacency by numbers.
* `Apart.mergeAdjacent_eq`: a merge leaves a timeline alone whose neighbours are apart.
* `apart_mergeAdjacent`: a merged timeline is such a one.
-/

namespace SpeechTranscript

open Double

/-! ## Distances -/

/-- The distance of two positions in doubles is their rounded distance. -/
theorem Duration.value_abs_sub (a b : Duration) :
    (a.seconds - b.seconds).abs.isFinite = true ∧
      value (a.seconds - b.seconds).abs = rounded |a.number - b.number| := by
  obtain ⟨hfinite, hvalue⟩ := value_seconds_sub a b
  obtain ⟨hfinite', hvalue'⟩ := value_abs hfinite
  rw [hvalue, abs_rounded] at hvalue'
  exact ⟨hfinite', hvalue'⟩

namespace Segment

/-- How many seconds a gap in milliseconds allows. -/
def reach (gap : Float) : Float := gap / 1000 + timeSlack

section Adjacent

variable {a b c : Segment} {startA stopA startB stopB stopB' : Duration} {gap : Float}

/-- Stretches are adjacent if the smaller one of their distances is within the gap. -/
theorem adjacentStretches_iff : adjacentStretches startA stopA startB stopB gap = true ↔
    AtLeast (reach gap) (min (rounded |startB.number - stopA.number|)
      (rounded |startA.number - stopB.number|)) := by
  obtain ⟨hforward, hvalue⟩ := Duration.value_abs_sub startB stopA
  obtain ⟨hbackward, hvalue'⟩ := Duration.value_abs_sub startA stopB
  -- the smaller of two doubles is the one whose number is smaller
  have horder := lt_iff hbackward hforward
  rw [adjacentStretches, decide_eq_true_iff]
  split
  · rename_i h
    rw [le_iff_atLeast hbackward, hvalue', min_eq_right]
    · rfl
    · rw [← hvalue, ← hvalue']
      exact (horder.1 h).le
  · rename_i h
    rw [le_iff_atLeast hforward, hvalue, min_eq_left]
    · rfl
    · rw [← hvalue, ← hvalue']
      exact not_lt.1 fun lt => h (horder.2 lt)

/-- Stretches are adjacent from either side. -/
theorem adjacentStretches_comm : adjacentStretches startA stopA startB stopB gap =
    adjacentStretches startB stopB startA stopA gap := by
  rw [Bool.eq_iff_iff, adjacentStretches_iff, adjacentStretches_iff, min_comm]

/-- A segment that starts where another one ends is adjacent to it, unless the gap is negative or no
number. -/
theorem isAdjacent_of_touching (htouching : a.stop = b.start) (hgap : 0 ≤ reach gap) :
    a.isAdjacent b gap = true := by
  have hreach := atLeast_of_le Duration.isFinite_zero hgap
  rw [Duration.value_zero] at hreach
  rw [isAdjacent, adjacentStretches_iff]
  refine hreach.mono (min_le_left _ _ |>.trans ?_)
  rw [htouching, sub_self, abs_zero, rounded_zero]

/-- A later end of the second stretch does not bring it closer to one that starts before it. -/
theorem adjacentStretches_of_later (hstart : startA ≤ startB) (hproper : startB < stopB)
    (hstop : stopB ≤ stopB') (h : adjacentStretches startA stopA startB stopB' gap = true) :
    adjacentStretches startA stopA startB stopB gap = true := by
  rw [Duration.le_iff] at hstart hstop
  rw [Duration.lt_iff] at hproper
  rw [adjacentStretches_iff] at h ⊢
  refine h.mono (min_le_min le_rfl (rounded_mono ?_))
  rw [abs_sub_comm, abs_sub_comm startA.number, abs_of_nonneg (by linarith),
    abs_of_nonneg (by linarith)]
  linarith

/-- What has become of a segment, with the same start and no earlier end, is adjacent to an earlier
one only if the segment was. -/
theorem isAdjacent_of_stretched (hab : a.start ≤ b.start) (hstart : c.start = b.start)
    (hstop : b.stop ≤ c.stop) (h : a.isAdjacent c gap = true) : a.isAdjacent b gap = true := by
  rw [isAdjacent, hstart] at h
  exact adjacentStretches_of_later hab b.start_lt_stop hstop h

end Adjacent

end Segment

/-! ## Neighbours that are apart -/

namespace Timeline

/-- No segment is adjacent to the one before it. -/
def Apart (gap : Float) (timeline : Timeline) : Prop :=
  timeline.IsChain fun a b => a.isAdjacent b gap = false

section Apart

variable {gap : Float} {timeline merged rest : Timeline} {current : Segment}

theorem Apart.foldAdjacent_eq (h : Apart gap (current :: rest)) :
    foldAdjacent gap current rest = .ok (current :: rest) := by
  induction rest generalizing current with
  | nil => rfl
  | cons next rest ih =>
    obtain ⟨hnext, hrest⟩ := List.isChain_cons_cons.1 h
    rw [foldAdjacent, if_neg (by rw [hnext]; decide), ih hrest]
    rfl

/-- There is nothing to merge in a timeline whose neighbours are apart. -/
theorem Apart.mergeAdjacent_eq (h : Apart gap timeline) :
    timeline.mergeAdjacent gap = .ok timeline := by
  cases timeline with
  | nil => rfl
  | cons first rest => exact h.foldAdjacent_eq

/-- What a merge makes of the segment at hand and of those that follow: the first one has its start
and no earlier end, and all neighbours are apart. -/
theorem apart_foldAdjacent (hordered : Ordered (current :: rest))
    (h : foldAdjacent gap current rest = .ok merged) :
    Apart gap merged ∧ ∃ first more, merged = first :: more ∧ first.start = current.start ∧
      current.stop ≤ first.stop := by
  -- on what is left of the timeline, as `foldAdjacent` goes through it
  induction rest generalizing current merged with
  | nil =>
    cases h
    exact ⟨.singleton current, current, [], rfl, rfl, Duration.le_refl _⟩
  | cons next rest ih =>
    obtain ⟨hcurrent, hrest⟩ := List.pairwise_cons.1 hordered
    obtain ⟨hnext, hlater⟩ := List.forall_mem_cons.1 hcurrent
    rw [foldAdjacent] at h
    split at h
    · obtain ⟨united, hunited, h⟩ := bind_eq_ok_iff.1 h
      obtain ⟨hstart, hstop, -, -⟩ := Segment.mergeWithin_eq_ok hunited
      rw [Duration.earlier_eq_left _ _ hnext] at hstart
      have hunitedOrdered : Ordered (united :: rest) := by
        refine List.pairwise_cons.2 ⟨fun s hs => ?_, (List.pairwise_cons.1 hrest).2⟩
        rw [hstart]
        exact hlater s hs
      obtain ⟨hapart, first, more, hmerged, hfirst, hend⟩ := ih hunitedOrdered h
      refine ⟨hapart, first, more, hmerged, hfirst.trans hstart, ?_⟩
      rw [hstop, Duration.later_le_iff] at hend
      exact hend.1
    · rename_i hfar
      obtain ⟨more, hmore, h⟩ := bind_eq_ok_iff.1 h
      cases h
      obtain ⟨hapart, first, later, rfl, hfirst, hend⟩ := ih hrest hmore
      refine ⟨List.isChain_cons_cons.2 ⟨?_, hapart⟩, current, first :: later, rfl, rfl,
        Duration.le_refl _⟩
      -- the next segment was too far away already before it was stretched
      exact Bool.eq_false_iff.2 fun hadjacent =>
        hfar (Segment.isAdjacent_of_stretched hnext hfirst hend hadjacent)

/-- After a merge all neighbours are apart. -/
theorem apart_mergeAdjacent (hordered : timeline.Ordered)
    (h : timeline.mergeAdjacent gap = .ok merged) : Apart gap merged := by
  cases timeline with
  | nil =>
    cases h
    exact .nil
  | cons first rest => exact (apart_foldAdjacent hordered h).1

end Apart

end Timeline

end SpeechTranscript
