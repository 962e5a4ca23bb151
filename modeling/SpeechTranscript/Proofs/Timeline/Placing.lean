import SpeechTranscript.Proofs.Timeline.Progress
import SpeechTranscript.Proofs.Timeline.Separation

/-!
# Placing several segments

Segments that are placed one after the other are each checked against another timeline: the one that
those before them have left. Still their order does not matter: all of them fit if none shares too
much time with a segment that is there, nor with another one of them. Two segments that do not start
together take the same places whichever comes first. Of two that do, the one that comes later stands
in front.

* `fits_cons_iff`: one segment after the other.
* `fits_iff_of_perm`: whether segments fit does not depend on their order.
* `Ordered.place_comm_iff`: when it does not matter which of two segments comes first.
* `Ordered.placed_eq_of_perm`: the order of a batch does not show on the timeline, if no two of its
  segments start together.
-/

namespace SpeechTranscript.Timeline

section Fits

variable {timeline : Timeline} {segment : Segment} {batch batch' : List Segment}

/-- No segment of a batch shares more time than it may with one that is there, nor with one at
another place of the batch. -/
def Fits (timeline : Timeline) (batch : List Segment) : Prop :=
  Separated batch ∧ ∀ segment ∈ batch, ∀ other ∈ timeline,
    (segment.overlap other).seconds ≤ overlapTolerance + timeSlack

instance (timeline : Timeline) (batch : List Segment) : Decidable (timeline.Fits batch) :=
  inferInstanceAs (Decidable (_ ∧ ∀ segment ∈ batch, ∀ other ∈ timeline,
    (segment.overlap other).seconds ≤ overlapTolerance + timeSlack))

/-- A batch fits exactly if no two of its segments overlap too much, and none of them does with the
timeline. -/
theorem fits_iff_pairwise :
    timeline.Fits batch ↔ batch.Pairwise (fun a b => (a.overlap b).number ≤ allowance) ∧
      ∀ segment ∈ batch, ∀ other ∈ timeline, (segment.overlap other).number ≤ allowance := by
  simp only [Fits, separated_iff_pairwise, le_allowance_iff]

theorem fits_nil (timeline : Timeline) : timeline.Fits [] := fits_iff_pairwise.2 ⟨.nil, nofun⟩

/-- The first segment has to fit the timeline, and the others the timeline with it. -/
theorem fits_cons_iff : timeline.Fits (segment :: batch) ↔
    (∀ other ∈ timeline, conflicts segment other = false) ∧
      (timeline.place segment).Fits batch := by
  rw [fits_iff_pairwise, fits_iff_pairwise]
  constructor
  · rintro ⟨hbatch, hthere⟩
    obtain ⟨hfirst, hrest⟩ := List.pairwise_cons.1 hbatch
    refine ⟨fun other hother => conflicts_eq_false_iff.2 ?_, hrest, ?_⟩
    · exact hthere segment List.mem_cons_self other hother
    · intro later hlater other hother
      -- a later segment meets the first one on the timeline
      rcases mem_place.1 hother with rfl | hother
      · rw [Segment.number_overlap_comm]
        exact hfirst later hlater
      · exact hthere later (List.mem_cons_of_mem _ hlater) other hother
  · rintro ⟨hsegment, hrest, hthere⟩
    refine ⟨List.pairwise_cons.2 ⟨fun later hlater => ?_, hrest⟩, ?_⟩
    · rw [Segment.number_overlap_comm]
      exact hthere later hlater segment (mem_place.2 (.inl rfl))
    · intro any hany other hother
      rcases List.mem_cons.1 hany with rfl | hlater
      · exact conflicts_eq_false_iff.1 (hsegment other hother)
      · exact hthere any hlater other (mem_place.2 (.inr hother))

/-- Whether the segments of a batch fit does not depend on their order. -/
theorem fits_iff_of_perm (h : batch.Perm batch') : timeline.Fits batch ↔ timeline.Fits batch' := by
  rw [fits_iff_pairwise, fits_iff_pairwise, h.pairwise_iff fun {a b} hab => ?_]
  · simp only [h.mem_iff]
  · rwa [Segment.number_overlap_comm]

end Fits

section Placed

variable {timeline : Timeline} {a b : Segment} {batch batch' : List Segment}

/-- Segments that start at different times can be placed in either order. -/
theorem Ordered.place_comm_of_lt (h : timeline.Ordered) (hlt : a.start < b.start) :
    (timeline.place a).place b = (timeline.place b).place a := by
  -- the list falls into what starts before both, between them and after both
  obtain ⟨front, later, rfl, hfront, hlater⟩ := h.exists_parts b.start
  have horder : front.Ordered := (List.pairwise_append.1 h).1
  obtain ⟨earlier, between, rfl, hearlier, hbetween⟩ := horder.exists_parts a.start
  obtain ⟨hbefore, hamong⟩ := List.forall_mem_append.1 hfront
  have hnumber := (Duration.lt_iff _ _).1 hlt
  have hback : ¬ b.start < a.start := fun hgt => hnumber.asymm ((Duration.lt_iff _ _).1 hgt)
  have hafter : ∀ other ∈ later, ¬ other.start < a.start := fun other hother hsooner =>
    hlater other hother ((Duration.lt_iff _ _).2 (((Duration.lt_iff _ _).1 hsooner).trans hnumber))
  calc ((earlier ++ between ++ later).place a).place b
    _ = Timeline.place (earlier ++ a :: between ++ later) b := by
      rw [List.append_assoc, place_append hearlier (List.forall_mem_append.2 ⟨hbetween, hafter⟩),
        ← List.cons_append, ← List.append_assoc]
    _ = earlier ++ a :: between ++ b :: later :=
      place_append (List.forall_mem_append.2 ⟨hbefore, List.forall_mem_cons.2 ⟨hlt, hamong⟩⟩) hlater
    _ = Timeline.place (earlier ++ (between ++ b :: later)) a := by
      rw [place_append hearlier (List.forall_mem_append.2
        ⟨hbetween, List.forall_mem_cons.2 ⟨hback, hafter⟩⟩), List.append_assoc, List.cons_append]
    _ = ((earlier ++ between ++ later).place b).place a := by
      rw [place_append hfront hlater, List.append_assoc]

/-- Of two segments that start together, the one that comes later stands in front. -/
theorem Ordered.place_place_of_beq (h : timeline.Ordered) (heq : a.start == b.start) :
    ∃ earlier later, (timeline.place a).place b = earlier ++ b :: a :: later ∧
      (timeline.place b).place a = earlier ++ a :: b :: later := by
  have hnumber := (Duration.beq_iff _ _).1 heq
  obtain ⟨earlier, later, rfl, hearlier, hlater⟩ := h.exists_parts a.start
  have hearlier' : ∀ other ∈ earlier, other.start < b.start := fun other hother => by
    rw [Duration.lt_iff, ← hnumber, ← Duration.lt_iff]
    exact hearlier other hother
  have hlater' : ∀ other ∈ later, ¬ other.start < b.start := fun other hother => by
    rw [Duration.lt_iff, ← hnumber, ← Duration.lt_iff]
    exact hlater other hother
  -- neither of the two starts before the other, so each goes right in front
  have hab : ¬ a.start < b.start := fun hlt => ((Duration.lt_iff _ _).1 hlt).ne hnumber
  have hba : ¬ b.start < a.start := fun hlt => ((Duration.lt_iff _ _).1 hlt).ne' hnumber
  refine ⟨earlier, later, ?_, ?_⟩
  · rw [place_append hearlier hlater,
      place_append hearlier' (List.forall_mem_cons.2 ⟨hab, hlater'⟩)]
  · rw [place_append hearlier' hlater',
      place_append hearlier (List.forall_mem_cons.2 ⟨hba, hlater⟩)]

/-- It makes no difference which of two segments comes first, exactly if they do not start together
or are the same. -/
theorem Ordered.place_comm_iff (h : timeline.Ordered) :
    (timeline.place a).place b = (timeline.place b).place a ↔ a.start != b.start ∨ a = b := by
  constructor
  · intro hcomm
    cases heq : a.start == b.start with
    | false => exact .inl (by rw [bne, heq]; rfl)
    | true =>
      obtain ⟨earlier, later, hab, hba⟩ := h.place_place_of_beq heq
      rw [hab, hba] at hcomm
      -- the two lists differ in which of the two comes first
      exact .inr (List.cons.inj (List.append_cancel_left hcomm)).1.symm
  · rintro (hne | rfl)
    · rcases lt_or_gt_of_ne ((Duration.bne_iff _ _).1 hne) with hlt | hgt
      · exact h.place_comm_of_lt ((Duration.lt_iff _ _).2 hlt)
      · exact (h.place_comm_of_lt ((Duration.lt_iff _ _).2 hgt)).symm
    · rfl

/-- What the segments of a batch make of a timeline does not depend on their order, if no two of
them start together. -/
theorem Ordered.placed_eq_of_perm (h : timeline.Ordered) (hperm : batch.Perm batch')
    (hstarts : batch.Pairwise (·.start != ·.start)) :
    timeline.placed batch = timeline.placed batch' := by
  induction hperm generalizing timeline with
  | nil => rfl
  | cons segment _ ih => exact ih h.place (List.pairwise_cons.1 hstarts).2
  -- only here the order matters, and the starts differ
  | swap a b rest =>
    have hne := (List.pairwise_cons.1 hstarts).1 a List.mem_cons_self
    exact congrArg (placed · rest) (h.place_comm_iff.2 (.inl hne))
  | trans first second ih₁ ih₂ =>
    have hmiddle := (first.pairwise_iff fun {a b} hab => ?_).1 hstarts
    · exact (ih₁ h hstarts).trans (ih₂ h hmiddle)
    · rw [Duration.bne_iff] at hab ⊢
      exact hab.symm

end Placed

end SpeechTranscript.Timeline
