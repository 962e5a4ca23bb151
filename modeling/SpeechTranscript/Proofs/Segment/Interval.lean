import SpeechTranscript.Proofs.Double.Exact
import SpeechTranscript.Proofs.Double.Grid
import SpeechTranscript.Proofs.Segment.Symmetry

/-!
# Segments as intervals

Two segments overlap if the later one of their starts lies before the earlier one of their ends. The
time they share is the difference of these two positions in doubles, and the difference of doubles
that differ does not vanish. So a look at the ends of two segments and the length of the time they
share tell the same, however close the ends are.

* `overlaps_iff`: overlapping by numbers.
* `overlap_comm`: the shared time is the same double from either side.
* `overlap_laws`: how the three ways to compare two segments go together.
-/

namespace SpeechTranscript

open Double

/-- Durations of one length are the same, unless both are zero. -/
theorem Duration.eq_of_number_eq {a b : Duration} (h : a.number = b.number) (hne : b.number ≠ 0) :
    a = b := by
  have hseconds : a.seconds = b.seconds := eq_of_value_eq a.isFinite b.isFinite h hne
  cases a
  cases b
  cases hseconds
  rfl

namespace Segment

variable (a b : Segment)

/-! ## Overlapping -/

/-- The later start of two segments lies before their earlier end. -/
theorem overlaps_iff : a.overlaps b = true ↔
    max a.start.number b.start.number < min a.stop.number b.stop.number := by
  have ha := (Duration.lt_iff _ _).1 a.start_lt_stop
  have hb := (Duration.lt_iff _ _).1 b.start_lt_stop
  rw [overlaps, Bool.not_eq_true', Bool.or_eq_false_iff, decide_eq_false_iff_not,
    decide_eq_false_iff_not, Duration.le_iff, Duration.le_iff, not_le, not_le, max_lt_iff,
    lt_min_iff, lt_min_iff]
  tauto

/-- What two segments share lasts some time exactly if they overlap. -/
theorem number_overlap_pos_iff : 0 < (a.overlap b).number ↔ a.overlaps b = true := by
  have hgrid (d : Duration) : OnGrid d.number := onGrid_value d.seconds
  rw [overlaps_iff, number_overlap]
  constructor
  · intro hpos
    by_contra hapart
    have hnothing := rounded_mono (sub_nonpos.2 (not_lt.1 hapart))
    rw [rounded_zero] at hnothing
    rw [max_eq_left hnothing] at hpos
    exact lt_irrefl 0 hpos
  · intro hshare
    -- the difference of two doubles that differ is not rounded to zero
    refine lt_max_of_lt_right (rounded_sub_pos ?_ ?_ hshare)
    · exact max_rec' OnGrid (hgrid _) (hgrid _)
    · exact min_rec' OnGrid (hgrid _) (hgrid _)

variable {a b}

theorem overlap_eq_zero (h : a.overlaps b = false) : a.overlap b = .zero := by
  have horder := Duration.le_iff (.earlier a.stop b.stop) (.later a.start b.start)
  rw [Duration.number_earlier, Duration.number_later, ← not_lt, ← overlaps_iff, h] at horder
  unfold overlap
  dsimp only
  exact if_pos (horder.2 Bool.false_ne_true)

variable (a b)

/-- The shared time is the same double from either side, also when only the sign of a zero tells the
starts apart. -/
theorem overlap_comm : a.overlap b = b.overlap a := by
  cases h : a.overlaps b with
  | false => rw [overlap_eq_zero h, overlap_eq_zero ((overlaps_comm b a).trans h)]
  | true =>
    have hpos := (number_overlap_pos_iff b a).2 ((overlaps_comm b a).trans h)
    exact Duration.eq_of_number_eq (number_overlap_comm a b) hpos.ne'

/-! ## The whole segment -/

/-- A segment shares no more than all of its time. -/
theorem overlap_le_duration : a.overlap b ≤ a.duration := by
  rw [Duration.le_iff, number_overlap, duration, Duration.number_sub]
  exact max_le_max le_rfl (rounded_mono (sub_le_sub (min_le_left _ _) (le_max_left _ _)))

/-- Two segments overlap if the later start lies before the earlier end, and exactly then the time
they share is not zero. That, the shared time itself and being adjacent do not depend on the side,
whatever the gap is, and neither segment is shorter than what it shares. -/
theorem overlap_laws :
    (a.overlaps b = true ↔
      max a.start.number b.start.number < min a.stop.number b.stop.number) ∧
      (a.overlaps b = true ↔ (a.overlap b).isZero = false) ∧
      a.overlaps b = b.overlaps a ∧ a.overlap b = b.overlap a ∧
      (∀ gap, a.isAdjacent b gap = b.isAdjacent a gap) ∧
      a.overlap b ≤ a.duration ∧ a.overlap b ≤ b.duration := by
  refine ⟨overlaps_iff a b, ?_, overlaps_comm a b, overlap_comm a b, isAdjacent_comm a b,
    overlap_le_duration a b, ?_⟩
  · rw [← number_overlap_pos_iff, Bool.eq_false_iff, Ne, Duration.isZero_iff]
    exact (Duration.number_nonneg _).lt_iff_ne'
  · rw [overlap_comm]
    exact overlap_le_duration b a

end Segment

end SpeechTranscript
