import SpeechTranscript.Proofs.Segment.Union
import SpeechTranscript.Proofs.Timeline.Order

/-!
# What a merge unites

A merge goes through a timeline once and unites each segment with those before it as long as they
are adjacent. Which segments end up in one is decided by their stretches alone, so the groups can be
told before anything is merged.

* `groups`, `flatten_groups`: the groups cut the timeline into stretches of it.
* `mergeAdjacent_forall₂`: a merge makes one segment of every group.
* `Merged.covers`: the segment made of a group runs from its earliest start to its latest end.
-/

namespace SpeechTranscript.Timeline

/-- The groups of a timeline, given the group at hand and the stretch it covers. -/
def gather (gap : Float) (start stop : Duration) (group : Timeline) : Timeline → List Timeline
  | [] => [group]
  | next :: rest =>
    if Segment.adjacentStretches start stop next.start next.stop gap then
      gather gap (.earlier start next.start) (.later stop next.stop) (group ++ [next]) rest
    else group :: gather gap next.start next.stop [next] rest

/-- The groups of segments that a merge makes one segment each of. -/
def groups (gap : Float) : Timeline → List Timeline
  | [] => []
  | first :: rest => gather gap first.start first.stop [first] rest

section Flatten

variable {gap : Float} {start stop : Duration} {group rest : Timeline}

/-- No segment is lost in the groups, and none changes its place. -/
theorem flatten_gather : (gather gap start stop group rest).flatten = group ++ rest := by
  induction rest generalizing start stop group with
  | nil => rw [gather, List.flatten_singleton, List.append_nil]
  | cons next rest ih =>
    rw [gather]
    split
    · rw [ih, List.append_assoc, List.singleton_append]
    · rw [List.flatten_cons, ih, List.singleton_append]

/-- The groups are the timeline, cut into pieces. -/
theorem flatten_groups (gap : Float) (timeline : Timeline) :
    (groups gap timeline).flatten = timeline := by
  cases timeline with
  | nil => rfl
  | cons first rest => exact flatten_gather

end Flatten

/-! ## The segment of a group -/

/-- A segment made of the segments of a group, one after the other. -/
inductive Merged (gap : Float) : Timeline → Segment → Prop where
  | single (segment : Segment) : Merged gap [segment] segment
  | more {group : Timeline} {current next merged : Segment} (front : Merged gap group current)
      (last : current.mergeWithin next gap = .ok merged) : Merged gap (group ++ [next]) merged

/-- A segment covers the stretch of a group: it has the earliest start and the latest end. -/
structure Covers (group : Timeline) (segment : Segment) : Prop where
  exists_start : ∃ s ∈ group, s.start.number = segment.start.number
  start_le : ∀ s ∈ group, segment.start.number ≤ s.start.number
  exists_stop : ∃ s ∈ group, s.stop.number = segment.stop.number
  le_stop : ∀ s ∈ group, s.stop.number ≤ segment.stop.number

section Merge

variable {gap : Float} {group rest timeline merged : Timeline} {current segment : Segment}

/-- A merged segment covers its group from the earliest start to the latest end. -/
theorem Merged.covers (h : Merged gap group segment) : Covers group segment := by
  induction h with
  | single segment =>
    have hself := List.mem_singleton_self segment
    refine ⟨⟨segment, hself, rfl⟩, ?_, ⟨segment, hself, rfl⟩, ?_⟩
    all_goals
      intro s hs
      rw [List.mem_singleton.1 hs]
  | @more group current next merged front last ih =>
    obtain ⟨hstart, hstop, -, -⟩ := Segment.mergeWithin_eq_ok last
    have hstart := (congrArg Duration.number hstart).trans (Duration.number_earlier _ _)
    have hstop := (congrArg Duration.number hstop).trans (Duration.number_later _ _)
    have hlast : next ∈ group ++ [next] := List.mem_append_right _ (List.mem_singleton_self _)
    refine ⟨?_, ?_, ?_, ?_⟩
    · -- the start is that of the new segment or the one so far
      obtain ⟨s, hs, heq⟩ := ih.exists_start
      rcases min_choice current.start.number next.start.number with hmin | hmin
      · exact ⟨s, List.mem_append_left _ hs, by rw [hstart, hmin, heq]⟩
      · exact ⟨next, hlast, by rw [hstart, hmin]⟩
    · intro s hs
      rw [hstart]
      rcases List.mem_append.1 hs with hs | hs
      · exact (min_le_left _ _).trans (ih.start_le s hs)
      · rw [List.mem_singleton.1 hs]
        exact min_le_right _ _
    · obtain ⟨s, hs, heq⟩ := ih.exists_stop
      rcases max_choice current.stop.number next.stop.number with hmax | hmax
      · exact ⟨s, List.mem_append_left _ hs, by rw [hstop, hmax, heq]⟩
      · exact ⟨next, hlast, by rw [hstop, hmax]⟩
    · intro s hs
      rw [hstop]
      rcases List.mem_append.1 hs with hs | hs
      · exact (ih.le_stop s hs).trans (le_max_left _ _)
      · rw [List.mem_singleton.1 hs]
        exact le_max_right _ _

/-- Folding merges the groups that are gathered. -/
theorem foldAdjacent_forall₂ (hcurrent : Merged gap group current)
    (h : foldAdjacent gap current rest = .ok merged) :
    List.Forall₂ (Merged gap) (gather gap current.start current.stop group rest) merged := by
  -- on what is left of the timeline, with the segment at hand made of the group at hand
  induction rest generalizing current group merged with
  | nil =>
    cases h
    exact .cons hcurrent .nil
  | cons next rest ih =>
    rw [foldAdjacent, Segment.isAdjacent] at h
    rw [gather]
    split at h
    · rename_i hadjacent
      rw [if_pos hadjacent]
      obtain ⟨united, hunited, h⟩ := bind_eq_ok_iff.1 h
      obtain ⟨hstart, hstop, -, -⟩ := Segment.mergeWithin_eq_ok hunited
      rw [← hstart, ← hstop]
      exact ih (hcurrent.more hunited) h
    · rename_i hapart
      rw [if_neg hapart]
      obtain ⟨more, hmore, h⟩ := bind_eq_ok_iff.1 h
      cases h
      exact .cons hcurrent (ih (.single next) hmore)

/-- A merge makes one segment of every group. -/
theorem mergeAdjacent_forall₂ (h : timeline.mergeAdjacent gap = .ok merged) :
    List.Forall₂ (Merged gap) (groups gap timeline) merged := by
  cases timeline with
  | nil =>
    cases h
    exact .nil
  | cons first rest => exact foldAdjacent_forall₂ (.single first) h

/-- What survives the merging of two segments holds of the segment of a group if it holds of the
group. -/
theorem Merged.invariant {P : Segment → Prop}
    (merge : ∀ {a b united}, P a → P b → a.mergeWithin b gap = .ok united → P united)
    (h : Merged gap group segment) (hgroup : ∀ s ∈ group, P s) : P segment := by
  induction h with
  | single segment => exact hgroup segment (List.mem_singleton_self _)
  | more front last ih =>
    obtain ⟨hfront, hnext⟩ := List.forall_mem_append.1 hgroup
    exact merge (ih hfront) (List.forall_mem_singleton.1 hnext) last

/-- What survives the merging of two segments survives that of a timeline. -/
theorem forall_mergeAdjacent {P : Segment → Prop}
    (merge : ∀ {a b united}, P a → P b → a.mergeWithin b gap = .ok united → P united)
    (h : ∀ s ∈ timeline, P s) (hmerge : timeline.mergeAdjacent gap = .ok merged) :
    ∀ s ∈ merged, P s := by
  have hforall := mergeAdjacent_forall₂ hmerge
  rw [← flatten_groups gap timeline] at h
  generalize groups gap timeline = groups at h hforall
  clear hmerge
  -- group by group, each of them merged into one segment
  induction hforall with
  | nil => exact nofun
  | cons hfirst hrest ih =>
    rw [List.flatten_cons, List.forall_mem_append] at h
    exact List.forall_mem_cons.2 ⟨hfirst.invariant merge h.1, ih h.2⟩

end Merge

/-! ## Order -/

section Ordered

variable {α β : Type} {r : α → β → Prop} {xs : List α} {ys : List β}

theorem forall_mem_iff_of_forall₂ {s p : α → Prop} {q : β → Prop} (h : List.Forall₂ r xs ys)
    (hs : ∀ x ∈ xs, s x) (hpq : ∀ {x y}, r x y → s x → (p x ↔ q y)) :
    (∀ x ∈ xs, p x) ↔ ∀ y ∈ ys, q y := by
  induction h with
  | nil => exact iff_of_true nofun nofun
  | cons hfirst _ ih =>
    rw [List.forall_mem_cons] at hs
    rw [List.forall_mem_cons, List.forall_mem_cons, hpq hfirst hs.1, ih hs.2]

/-- What holds between any two of a list carries over to what takes their places. -/
theorem pairwise_iff_of_forall₂ {s p : α → α → Prop} {q : β → β → Prop} (h : List.Forall₂ r xs ys)
    (hs : xs.Pairwise s) (hpq : ∀ {x x' y y'}, r x y → r x' y' → s x x' → (p x x' ↔ q y y')) :
    xs.Pairwise p ↔ ys.Pairwise q := by
  induction h with
  | nil => exact iff_of_true .nil .nil
  | cons hfirst hrest ih =>
    obtain ⟨hs, hsrest⟩ := List.pairwise_cons.1 hs
    rw [List.pairwise_cons, List.pairwise_cons, ih hsrest,
      forall_mem_iff_of_forall₂ hrest hs (hpq hfirst)]

variable {gap : Float} {timeline merged former latter : Timeline} {a b : Segment}

/-- Of two groups the first one has the earlier starts. -/
theorem Ordered.pairwise_groups (h : timeline.Ordered) (gap : Float) :
    (groups gap timeline).Pairwise fun former latter =>
      ∀ a ∈ former, ∀ b ∈ latter, a.start ≤ b.start := by
  rw [Ordered, ← flatten_groups gap timeline] at h
  exact (List.pairwise_flatten.1 h).2

/-- Covering segments start in the order in which their groups do. -/
theorem Covers.start_le_start (ha : Covers former a) (hb : Covers latter b)
    (h : ∀ s ∈ former, ∀ t ∈ latter, s.start ≤ t.start) : a.start.number ≤ b.start.number := by
  obtain ⟨s, hs, -⟩ := ha.exists_start
  obtain ⟨t, ht, heq⟩ := hb.exists_start
  rw [← heq]
  exact (ha.start_le s hs).trans ((Duration.le_iff _ _).1 (h s hs t ht))

/-- Merging keeps the order. -/
theorem Ordered.mergeAdjacent (h : timeline.Ordered)
    (hmerge : timeline.mergeAdjacent gap = .ok merged) : merged.Ordered := by
  have hgroups := h.pairwise_groups gap
  refine (pairwise_iff_of_forall₂ (mergeAdjacent_forall₂ hmerge) hgroups ?_).1 hgroups
  intro former latter a b ha hb hstarts
  refine iff_of_true hstarts ((Duration.le_iff _ _).2 ?_)
  exact ha.covers.start_le_start hb.covers hstarts

end Ordered

end SpeechTranscript.Timeline
