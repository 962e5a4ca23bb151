import SpeechTranscript.Proofs.Timeline.Groups

/-!
# How far segments keep apart

Two segments may share a tenth of a second. A new segment is checked against all that are there, so
accepting one keeps a timeline separated. A merge checks nothing: it stretches segments over others
that they did not touch before. It keeps a timeline separated exactly when no segment of one group
lasts past the start of a later group together with a segment of that.

* `Separated.accept`: what is accepted keeps apart.
* `separated_mergeAdjacent_iff`: when a merge keeps a timeline separated.
-/

namespace SpeechTranscript.Timeline

open Double

/-- Segments at different places share no more time than they may. -/
def Separated (timeline : Timeline) : Prop :=
  ∀ i (hi : i < timeline.length) j (hj : j < timeline.length), i ≠ j →
    ((timeline[i]).overlap timeline[j]).seconds ≤ overlapTolerance + timeSlack

instance (timeline : Timeline) : Decidable timeline.Separated :=
  inferInstanceAs (Decidable (∀ i (hi : i < timeline.length) j (hj : j < timeline.length), i ≠ j →
    ((timeline[i]).overlap timeline[j]).seconds ≤ overlapTolerance + timeSlack))

/-- No two segments of a later group last past the start of any of its segments together with a
segment of an earlier group, by more than segments may share. -/
def Clear (gap : Float) (timeline : Timeline) : Prop :=
  (groups gap timeline).Pairwise fun former latter =>
    ∀ a ∈ former, ∀ b ∈ latter, ∀ c ∈ latter,
      (Duration.earlier a.stop b.stop - c.start).seconds ≤ overlapTolerance + timeSlack

instance (gap : Float) (timeline : Timeline) : Decidable (Clear gap timeline) :=
  inferInstanceAs (Decidable (List.Pairwise _ _))

/-- The number of seconds that two segments may share. -/
def allowance : ℚ := value (overlapTolerance + timeSlack)

section Allowance

variable {a b : Segment}

theorem isFinite_allowance : (overlapTolerance + timeSlack).isFinite = true := by decide +kernel

/-- A duration is within the allowance exactly if its number is. -/
theorem le_allowance_iff (d : Duration) :
    d.seconds ≤ overlapTolerance + timeSlack ↔ d.number ≤ allowance :=
  le_iff d.isFinite isFinite_allowance

/-- Two segments do not conflict exactly if their overlap is within the allowance. -/
theorem conflicts_eq_false_iff : conflicts a b = false ↔ (a.overlap b).number ≤ allowance := by
  rw [conflicts, decide_eq_false_iff_not, lt_iff isFinite_allowance (Duration.isFinite _), not_lt]
  rfl

end Allowance

section Separated

variable {timeline next merged : Timeline} {segment : Segment} {gap : Float}

/-- It is enough to look at each two segments once. -/
theorem separated_iff_pairwise :
    timeline.Separated ↔ timeline.Pairwise fun a b => (a.overlap b).number ≤ allowance := by
  rw [List.pairwise_iff_getElem]
  constructor
  · intro h i j hi hj hlt
    exact (le_allowance_iff _).1 (h i hi j hj hlt.ne)
  · intro h i hi j hj hne
    rw [le_allowance_iff]
    rcases hne.lt_or_gt with hlt | hgt
    · exact h i j hi hj hlt
    · rw [Segment.number_overlap_comm]
      exact h j i hj hi hgt

theorem separated_nil : Separated [] := separated_iff_pairwise.2 .nil

/-- What is accepted keeps apart from what is there. -/
theorem Separated.accept (h : timeline.Separated) (haccept : timeline.accept segment = .ok next) :
    next.Separated := by
  obtain ⟨hclear, rfl⟩ := accept_eq_ok_iff.1 haccept
  rw [separated_iff_pairwise] at h ⊢
  refine (place_perm.pairwise_iff fun {a b} hab => ?_).2 (List.pairwise_cons.2 ⟨?_, h⟩)
  · rwa [Segment.number_overlap_comm]
  · intro other hother
    exact conflicts_eq_false_iff.1 (hclear other hother)

/-- The segments of two groups keep apart exactly when no two segments of the later group last too
far past the start of any, together with one of the earlier group. -/
theorem Covers.overlap_le_iff {former latter : Timeline} {a b : Segment} (ha : Covers former a)
    (hb : Covers latter b) (hstarts : ∀ s ∈ former, ∀ t ∈ latter, s.start ≤ t.start) :
    (a.overlap b).number ≤ allowance ↔ ∀ s ∈ former, ∀ t ∈ latter, ∀ u ∈ latter,
      (Duration.earlier s.stop t.stop - u.start).seconds ≤ overlapTolerance + timeSlack := by
  rw [Segment.number_overlap, max_eq_right (ha.start_le_start hb hstarts)]
  simp only [le_allowance_iff, Duration.number_sub, Duration.number_earlier]
  constructor
  · intro h s hs t ht u hu
    refine (max_le_max le_rfl (rounded_mono ?_)).trans h
    exact sub_le_sub (min_le_min (ha.le_stop s hs) (hb.le_stop t ht)) (hb.start_le u hu)
  · intro h
    -- the ends and the start that count are those of segments of the groups
    obtain ⟨s, hs, hstop⟩ := ha.exists_stop
    obtain ⟨t, ht, hstop'⟩ := hb.exists_stop
    obtain ⟨u, hu, hstart⟩ := hb.exists_start
    rw [← hstop, ← hstop', ← hstart]
    exact h s hs t ht u hu

/-- A merge keeps segments apart exactly when the groups are clear of each other. -/
theorem separated_mergeAdjacent_iff (h : timeline.Ordered)
    (hmerge : timeline.mergeAdjacent gap = .ok merged) : merged.Separated ↔ Clear gap timeline := by
  rw [separated_iff_pairwise]
  refine (pairwise_iff_of_forall₂ (mergeAdjacent_forall₂ hmerge) (h.pairwise_groups gap) ?_).symm
  intro former latter a b ha hb hstarts
  exact (ha.covers.overlap_le_iff hb.covers hstarts).symm

end Separated

end SpeechTranscript.Timeline
