import SpeechTranscript.Proofs.Segment
import SpeechTranscript.Timeline

/-!
# The order of a timeline

A timeline is kept in the order of the starts. This is what the search for the place of a new
segment takes for granted, and what it preserves.

* `Ordered.place_eq`: where a new segment goes.
* `Ordered.place`: the order is kept.
-/

namespace SpeechTranscript.Timeline

/-- Every segment starts no earlier than those before it. -/
def Ordered (timeline : Timeline) : Prop := timeline.Pairwise (·.start ≤ ·.start)

instance (timeline : Timeline) : Decidable timeline.Ordered :=
  inferInstanceAs (Decidable (timeline.Pairwise (·.start ≤ ·.start)))

theorem ordered_nil : Ordered [] := List.Pairwise.nil

section Place

variable {timeline : Timeline} {segment : Segment}

theorem insertIdx_length_append (earlier later : Timeline) (segment : Segment) :
    (earlier ++ later).insertIdx earlier.length segment = earlier ++ segment :: later := by
  induction earlier with
  | nil => rfl
  | cons first rest ih =>
    rw [List.cons_append, List.length_cons, List.insertIdx_succ_cons, ih, List.cons_append]

/-- Once one segment does not start before a position, none behind it does. -/
theorem Ordered.not_lt_of_mem_dropWhile (h : timeline.Ordered) (position : Duration) :
    ∀ other ∈ timeline.dropWhile (·.start < position), ¬ other.start < position := by
  induction timeline with
  | nil => exact nofun
  | cons first rest ih =>
    obtain ⟨hfirst, hrest⟩ := List.pairwise_cons.1 h
    rw [List.dropWhile_cons]
    split
    · exact ih hrest
    · rename_i hstop
      rw [decide_eq_true_iff, Duration.not_lt_iff] at hstop
      intro other hother
      rw [Duration.not_lt_iff]
      rcases List.mem_cons.1 hother with rfl | hmem
      · exact hstop
      · have hle := hfirst other hmem
        rw [Duration.le_iff] at hstop hle ⊢
        exact hstop.trans hle

/-- A position parts a timeline in what starts earlier and what does not. -/
theorem Ordered.exists_parts (h : timeline.Ordered) (position : Duration) :
    ∃ earlier later : Timeline, timeline = earlier ++ later ∧
      (∀ other ∈ earlier, other.start < position) ∧ ∀ other ∈ later, ¬ other.start < position := by
  refine ⟨timeline.takeWhile (·.start < position), timeline.dropWhile (·.start < position),
    List.takeWhile_append_dropWhile.symm, ?_, h.not_lt_of_mem_dropWhile position⟩
  intro other hother
  have hp := List.mem_takeWhile_imp (p := fun s : Segment => s.start < position) hother
  exact of_decide_eq_true hp

/-- A new segment goes behind all segments that start earlier and in front of all others. -/
theorem place_append {earlier later : Timeline}
    (hearlier : ∀ other ∈ earlier, other.start < segment.start)
    (hlater : ∀ other ∈ later, ¬ other.start < segment.start) :
    Timeline.place (earlier ++ later) segment = earlier ++ segment :: later := by
  rw [place, partitionPoint_append (fun other hother => decide_eq_true (hearlier other hother))
    (fun other hother => decide_eq_false (hlater other hother)), insertIdx_length_append]

/-- In a timeline that is in order, every segment has such a place. -/
theorem Ordered.place_eq (h : timeline.Ordered) (segment : Segment) :
    ∃ earlier later : Timeline, timeline = earlier ++ later ∧
      timeline.place segment = earlier ++ segment :: later ∧
      (∀ other ∈ earlier, other.start < segment.start) ∧
      ∀ other ∈ later, ¬ other.start < segment.start := by
  obtain ⟨earlier, later, rfl, hearlier, hlater⟩ := h.exists_parts segment.start
  exact ⟨earlier, later, rfl, place_append hearlier hlater, hearlier, hlater⟩

/-- Placing a segment keeps the order. -/
theorem Ordered.place (h : timeline.Ordered) : (timeline.place segment).Ordered := by
  obtain ⟨earlier, later, hparts, hplace, hearlier, hlater⟩ := h.place_eq segment
  rw [hplace]
  subst hparts
  obtain ⟨hfront, hback, hacross⟩ := List.pairwise_append.1 h
  refine List.pairwise_append.2 ⟨hfront, List.pairwise_cons.2 ⟨?_, hback⟩, ?_⟩
  · intro other hother
    exact (Duration.not_lt_iff _ _).1 (hlater other hother)
  · intro a ha b hb
    rcases List.mem_cons.1 hb with rfl | hmem
    · exact Duration.le_of_lt (hearlier a ha)
    · exact hacross a ha b hmem

end Place

end SpeechTranscript.Timeline
