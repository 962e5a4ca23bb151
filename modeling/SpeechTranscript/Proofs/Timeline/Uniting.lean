import SpeechTranscript.Proofs.Progress
import SpeechTranscript.Proofs.Timeline.Adjacency
import SpeechTranscript.Proofs.Timeline.Blocks
import SpeechTranscript.Proofs.Timeline.Separation

/-!
# When a merge unites everything

A merge compares each segment with what it has united so far, and that may last far longer than the
neighbour of the segment. A short segment inside a long one can be adjacent to the segment before it
and yet start long before the end of the long one and end long after the first start. The merge stops
to unite there. If each two neighbours are adjacent, this is the only thing that keeps a merge from
leaving one segment.

* `InReach`: no segment of a timeline lies like that.
* `length_groups_eq_one_iff`: when a merge unites all segments of a timeline.
* `Merged.spans`: the segment it makes of them.
-/

namespace SpeechTranscript.Timeline

open Double Segment

/-- A position is the latest end of some segments. -/
structure IsLatestStop (segments : List Segment) (stop : Duration) : Prop where
  exists_stop : ∃ s ∈ segments, s.stop = stop
  stop_le : ∀ s ∈ segments, s.stop ≤ stop

/-- A segment lasts from the first start of a timeline to the latest end. -/
structure Spans (timeline : Timeline) (segment : Segment) : Prop where
  start_eq : timeline.head?.map (·.start) = some segment.start
  stop_eq : IsLatestStop timeline segment.stop

/-- A segment starts no more than the gap before the end of another one, or it ends no more than the
gap after a position. -/
def Reaches (gap : Float) (position : Duration) (a b : Segment) : Prop :=
  (a.stop - b.start).seconds ≤ reach gap ∨ (b.stop - position).seconds ≤ reach gap

/-- Every segment starts no more than the gap before the end of each segment before it, or it ends
no more than the gap after the first start. -/
def InReach (gap : Float) : Timeline → Prop
  | [] => True
  | first :: rest => (first :: rest).Pairwise (Reaches gap first.start)

instance (gap : Float) (position : Duration) (a b : Segment) :
    Decidable (Reaches gap position a b) := inferInstanceAs (Decidable (_ ∨ _))

instance (gap : Float) : (timeline : Timeline) → Decidable (InReach gap timeline)
  | [] => inferInstanceAs (Decidable True)
  | first :: rest =>
    inferInstanceAs (Decidable ((first :: rest).Pairwise (Reaches gap first.start)))

/-! ## One more segment -/

section Step

variable {gap : Float} {start stop : Duration} {b c next : Segment} {group : List Segment}

/-- A segment is adjacent to a stretch that contains a neighbour it is adjacent to, if it starts not
too long before the end of the stretch or ends not too long after its start. -/
theorem adjacentStretches_iff_of_isAdjacent (hstart : start ≤ b.start) (hstop : b.stop ≤ stop)
    (hordered : b.start ≤ c.start) (h : b.isAdjacent c gap = true) :
    adjacentStretches start stop c.start c.stop gap = true ↔
      (stop - c.start).seconds ≤ reach gap ∨ (c.stop - start).seconds ≤ reach gap := by
  have hb := (Duration.lt_iff _ _).1 b.start_lt_stop
  have hc := (Duration.lt_iff _ _).1 c.start_lt_stop
  rw [Duration.le_iff] at hstart hstop hordered
  rw [isAdjacent, adjacentStretches_iff] at h
  rw [adjacentStretches_iff, atLeast_min_iff, le_iff_atLeast (Duration.isFinite _),
    le_iff_atLeast (Duration.isFinite _)]
  change _ ↔ AtLeast _ (stop - c.start).number ∨ AtLeast _ (c.stop - start).number
  have hend : (c.stop - start).number = rounded |start.number - c.stop.number| := by
    have hnonneg : 0 ≤ c.stop.number - start.number := by linarith
    rw [Duration.number_sub, max_eq_right (rounded_nonneg hnonneg), abs_sub_comm,
      abs_of_nonneg hnonneg]
  rw [hend, Duration.number_sub]
  rcases le_total c.start.number stop.number with hbefore | hbehind
  · -- it starts before the end of the stretch, and the distance is what it starts before it
    have hnonneg : 0 ≤ stop.number - c.start.number := by linarith
    rw [max_eq_right (rounded_nonneg hnonneg), abs_sub_comm, abs_of_nonneg hnonneg]
  · -- it starts behind the end, and is no further from it than from its neighbour
    refine iff_of_true (.inl (h.mono ?_)) (.inl (h.mono ?_))
    · rw [abs_of_nonneg (by linarith : 0 ≤ c.start.number - stop.number)]
      refine le_min (rounded_mono ?_) (rounded_mono ?_)
      · exact le_abs.2 (.inl (by linarith))
      · exact le_abs.2 (.inr (by linarith))
    · have hneg := rounded_mono (by linarith : stop.number - c.start.number ≤ 0)
      rw [rounded_zero] at hneg
      rw [max_eq_left hneg]
      exact le_min (rounded_nonneg (abs_nonneg _)) (rounded_nonneg (abs_nonneg _))

/-- The latest end with one more segment. -/
theorem IsLatestStop.append (h : IsLatestStop group stop) (next : Segment) :
    IsLatestStop (group ++ [next]) (.later stop next.stop) where
  exists_stop := by
    obtain ⟨s, hs, heq⟩ := h.exists_stop
    rw [Duration.later]
    split
    · exact ⟨next, List.mem_append_right _ (List.mem_singleton_self _), rfl⟩
    · exact ⟨s, List.mem_append_left _ hs, heq⟩
  stop_le := by
    intro s hs
    obtain ⟨hfront, hnext⟩ := Duration.le_later stop next.stop
    rcases List.mem_append.1 hs with hs | hs
    · exact Duration.le_trans (h.stop_le s hs) hfront
    · rw [List.mem_singleton.1 hs]
      exact hnext

/-- A segment reaches all of some segments if it reaches the one that ends last. -/
theorem IsLatestStop.forall_reaches_iff (h : IsLatestStop group stop) (gap : Float)
    (position : Duration) (next : Segment) :
    (∀ a ∈ group, Reaches gap position a next) ↔
      (stop - next.start).seconds ≤ reach gap ∨ (next.stop - position).seconds ≤ reach gap := by
  obtain ⟨s, hs, rfl⟩ := h.exists_stop
  constructor
  · exact fun hall => hall s hs
  · intro hlast a ha
    refine hlast.imp_left fun hreach => ?_
    have hle := (Duration.le_iff _ _).1 (h.stop_le a ha)
    rw [le_iff_atLeast (Duration.isFinite _)] at hreach ⊢
    -- an earlier end leaves a larger gap, as rounding keeps the order
    refine hreach.mono ?_
    change (a.stop - next.start).number ≤ (s.stop - next.start).number
    rw [Duration.number_sub, Duration.number_sub]
    exact max_le_max le_rfl (rounded_mono (by linarith))

end Step

/-! ## All segments -/

section Groups

variable {gap : Float} {start stop : Duration} {b segment : Segment}
  {group rest timeline merged : Timeline}

/-- There is a group at least. -/
theorem gather_ne_nil : gather gap start stop group rest ≠ [] := by
  induction rest generalizing start stop group with
  | nil => exact List.cons_ne_nil _ _
  | cons next rest ih =>
    rw [gather]
    split
    · exact ih
    · exact List.cons_ne_nil _ _

/-- The segments that are left are united with the group at hand exactly when each of them reaches
all segments before it. The last one of the group is their neighbour. -/
theorem length_gather_eq_one_iff (hstop : IsLatestStop group stop) (hstart : start ≤ b.start)
    (hb : b ∈ group) (hordered : Ordered (b :: rest))
    (hadjacent : (b :: rest).IsChain fun a c => a.isAdjacent c gap = true) :
    (gather gap start stop group rest).length = 1 ↔
      rest.Pairwise (Reaches gap start) ∧ ∀ a ∈ group, ∀ c ∈ rest, Reaches gap start a c := by
  induction rest generalizing b stop group with
  | nil => exact iff_of_true rfl ⟨.nil, fun _ _ _ hc => absurd hc List.not_mem_nil⟩
  | cons next rest ih =>
    obtain ⟨hnext, hrest⟩ := List.isChain_cons_cons.1 hadjacent
    obtain ⟨hle, hordered⟩ := List.pairwise_cons.1 hordered
    have hle := hle next List.mem_cons_self
    have hstartNext : start ≤ next.start := by
      rw [Duration.le_iff] at hstart hle ⊢
      exact hstart.trans hle
    have hreaches := hstop.forall_reaches_iff gap start next
    rw [← adjacentStretches_iff_of_isAdjacent hstart (hstop.stop_le b hb) hle hnext] at hreaches
    simp only [List.pairwise_cons, List.forall_mem_cons]
    rw [gather]
    split
    · rename_i hunited
      rw [Duration.earlier_eq_left _ _ hstartNext]
      have hlast : next ∈ group ++ [next] := List.mem_append_right _ (List.mem_singleton_self _)
      rw [ih (hstop.append next) hstartNext hlast hordered hrest]
      simp only [List.forall_mem_append, List.forall_mem_singleton]
      have hgroup := hreaches.2 hunited
      constructor
      · rintro ⟨hpairs, hbefore, hafter⟩
        exact ⟨⟨hafter, hpairs⟩, fun a ha => ⟨hgroup a ha, hbefore a ha⟩⟩
      · rintro ⟨⟨hafter, hpairs⟩, hbefore⟩
        exact ⟨hpairs, fun a ha => (hbefore a ha).2, hafter⟩
    · rename_i hapart
      refine iff_of_false ?_ fun h => hapart (hreaches.1 fun a ha => (h.2 a ha).1)
      -- there is a group after the one at hand
      intro hone
      rw [List.length_cons, Nat.add_eq_right] at hone
      exact gather_ne_nil (List.length_eq_zero_iff.1 hone)

/-- A merge unites all segments of a timeline, each of which is adjacent to the one before it,
exactly when all are in reach. -/
theorem length_groups_eq_one_iff (hsome : timeline ≠ []) (hordered : timeline.Ordered)
    (hadjacent : timeline.IsChain fun a b => a.isAdjacent b gap = true) :
    (groups gap timeline).length = 1 ↔ InReach gap timeline := by
  cases timeline with
  | nil => exact absurd rfl hsome
  | cons first rest =>
    have hself : first ∈ [first] := List.mem_singleton_self _
    have hstop : IsLatestStop [first] first.stop :=
      ⟨⟨first, hself, rfl⟩, List.forall_mem_singleton.2 (Duration.le_refl _)⟩
    rw [groups, length_gather_eq_one_iff hstop (Duration.le_refl _) hself hordered hadjacent,
      List.forall_mem_singleton, InReach, List.pairwise_cons, and_comm]

/-- The segment made of all segments of a timeline spans it. -/
theorem Merged.spans (h : Merged gap timeline segment) (hordered : timeline.Ordered) :
    Spans timeline segment := by
  obtain ⟨first, rest, rfl, hfold⟩ := h.exists_fold
  refine ⟨?_, ?_, ?_⟩
  · rw [start_of_fold hfold (List.pairwise_cons.1 hordered).1]
    rfl
  · rw [stop_of_fold hfold]
    exact List.mem_map.1 (latestStop_mem first.stop rest)
  · rw [stop_of_fold hfold]
    exact List.forall_mem_cons.2 (le_latestStop first.stop rest)

/-- A merge leaves one segment that spans the timeline exactly when all segments are in reach. -/
theorem exists_spans_iff (hsome : timeline ≠ []) (hordered : timeline.Ordered)
    (hadjacent : timeline.IsChain fun a b => a.isAdjacent b gap = true)
    (h : timeline.mergeAdjacent gap = .ok merged) :
    (∃ segment, merged = [segment] ∧ Spans timeline segment) ↔ InReach gap timeline := by
  rw [← length_groups_eq_one_iff hsome hordered hadjacent]
  have hforall := mergeAdjacent_forall₂ h
  have hflatten := flatten_groups gap timeline
  constructor
  · rintro ⟨segment, rfl, -⟩
    exact hforall.length_eq
  · intro hone
    -- with one group left, it has all segments in it
    obtain ⟨group, hgroup⟩ := List.length_eq_one_iff.1 hone
    rw [hgroup, List.flatten_singleton] at hflatten
    subst hflatten
    rw [hgroup] at hforall
    cases hforall with
    | @cons _ segment _ _ hmerged hnone =>
      cases hnone
      exact ⟨segment, rfl, hmerged.spans hordered⟩

end Groups

/-! ## Ends in order -/

section Ends

variable {gap : Float} {timeline : Timeline}

/-- What segments may share, without the slack. -/
def tolerance : Duration := ⟨overlapTolerance, by decide +kernel, by decide +kernel⟩

/-- The tolerance is a tenth of a second as a double. -/
theorem number_tolerance : tolerance.number = rounded (100 / 1000) := by
  have htenth : overlapTolerance = 100 / 1000 := by decide +kernel
  have hsmall : |(100 / 1000 : ℚ)| ≤ 2 ^ 100 := by norm_num [abs_of_pos]
  have hdiv := value_div Progress.isFinite_hundred Duration.isFinite_thousand
  rw [Progress.value_hundred, Duration.value_thousand, ← htenth] at hdiv
  exact (hdiv (by norm_num) (abs_rounded_lt hsmall)).2

/-- A gap of a tenth of a second or more allows no less than what segments may share. -/
theorem atLeast_reach (h : 100 ≤ gap) : AtLeast (reach gap) allowance := by
  have hquotient := (atLeast_of_le Progress.isFinite_hundred h).div
    (by rw [Progress.value_hundred]; norm_num) Duration.isFinite_thousand
    (by rw [Duration.value_thousand]; norm_num)
  rw [Progress.value_hundred, Duration.value_thousand, ← number_tolerance] at hquotient
  have hsum := hquotient.add (.inr ⟨Duration.slack.isFinite, le_rfl⟩) tolerance.number_nonneg
    Duration.slack.number_nonneg
  exact hsum.mono (Duration.value_seconds_add tolerance .slack).2.le

/-- If segments that keep apart also end in order, they are all in reach of a gap of a tenth of a
second or more. -/
theorem Separated.inReach (h : timeline.Separated) (hordered : timeline.Ordered)
    (hends : timeline.Pairwise (·.stop ≤ ·.stop)) (hgap : 100 ≤ gap) : InReach gap timeline := by
  cases timeline with
  | nil => trivial
  | cons first rest =>
    have hall := (separated_iff_pairwise.1 h).and (hordered.and hends)
    refine hall.imp fun {a b} hab => .inl ?_
    obtain ⟨hshared, hstart, hstop⟩ := hab
    rw [Duration.le_iff] at hstart hstop
    -- what the two share is the whole stretch from the start of the one to the end of the other
    rw [Segment.number_overlap, min_eq_left hstop, max_eq_right hstart, ← Duration.number_sub]
      at hshared
    exact (le_iff_atLeast (Duration.isFinite _)).2 ((atLeast_reach hgap).mono hshared)

end Ends

end SpeechTranscript.Timeline
