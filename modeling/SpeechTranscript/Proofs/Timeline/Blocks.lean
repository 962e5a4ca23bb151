import SpeechTranscript.Proofs.Timeline.Groups

/-!
# The blocks of a merged timeline

A merge cuts a timeline into blocks and folds each of them into one segment, from its first segment
on. In a timeline whose numbers do not fall the first segment of a block stays in the lead: the
segment that is made of the block starts with it and has its number, speaker and language. It ends
with whatever ends last in the block, so the merged timeline covers the same span.

* `exists_blocks`: the blocks, with what is told of the segment made of each.
* `span?_mergeAdjacent`: the span.
-/

namespace SpeechTranscript.Timeline

/-! ## Ends -/

/-- The latest of a position and the ends of some segments. -/
def latestStop (stop : Duration) (segments : List Segment) : Duration :=
  segments.foldl (fun latest s => .later latest s.stop) stop

section LatestStop

variable {gap : Float} {group merged : Timeline} {segment : Segment} (stop : Duration)

theorem latestStop_append (front back : List Segment) :
    latestStop stop (front ++ back) = latestStop (latestStop stop front) back := List.foldl_append

/-- The latest end is the position or the end of one of the segments. -/
theorem latestStop_mem (segments : List Segment) :
    latestStop stop segments ∈ stop :: segments.map (·.stop) := by
  induction segments generalizing stop with
  | nil => exact List.mem_singleton_self _
  | cons first rest ih =>
    rw [List.map_cons]
    rcases List.mem_cons.1 (ih (.later stop first.stop)) with heq | hrest
    · have heq : latestStop stop (first :: rest) = .later stop first.stop := heq
      -- it is the end of the first segment or the one before
      rw [heq, Duration.later]
      split
      · exact List.mem_cons_of_mem _ List.mem_cons_self
      · exact List.mem_cons_self
    · exact List.mem_cons_of_mem _ (List.mem_cons_of_mem _ hrest)

/-- None of them is later. -/
theorem le_latestStop (segments : List Segment) :
    stop ≤ latestStop stop segments ∧ ∀ s ∈ segments, s.stop ≤ latestStop stop segments := by
  induction segments generalizing stop with
  | nil => exact ⟨Duration.le_refl _, nofun⟩
  | cons first rest ih =>
    obtain ⟨hlater, hrest⟩ := ih (.later stop first.stop)
    obtain ⟨hstop, hfirst⟩ := (Duration.later_le_iff _ _ _).1 hlater
    exact ⟨hstop, List.forall_mem_cons.2 ⟨hfirst, hrest⟩⟩

/-- Of a group the latest end is that of the segment made of it. -/
theorem Merged.latestStop_eq (h : Merged gap group segment) :
    latestStop stop group = .later stop segment.stop := by
  induction h with
  | single segment => rfl
  | @more group current next merged front last ih =>
    obtain ⟨-, hstop, -, -⟩ := Segment.mergeWithin_eq_ok last
    rw [latestStop_append, ih, hstop, ← Duration.later_assoc]
    rfl

/-- Merging keeps the latest end. -/
theorem latestStop_of_forall₂ {groups : List Timeline}
    (h : List.Forall₂ (Merged gap) groups merged) :
    latestStop stop groups.flatten = latestStop stop merged := by
  induction h generalizing stop with
  | nil => rfl
  | cons hfirst hrest ih =>
    rw [List.flatten_cons, latestStop_append, hfirst.latestStop_eq, ih]
    rfl

end LatestStop

/-! ## Folding -/

/-- One segment made of a first one and those after it. -/
def fold (gap : Float) (first : Segment) (rest : List Segment) : Except Refusal Segment :=
  rest.foldlM (fun current next => current.mergeWithin next gap) first

section Fold

variable {gap : Float} {group : Timeline} {first current next segment merged : Segment}
  {rest : List Segment}

/-- The last segment of a block is merged last. -/
theorem fold_append_singleton :
    fold gap first (rest ++ [next]) = fold gap first rest >>= (·.mergeWithin next gap) := by
  rw [fold, List.foldlM_append]
  refine congrArg _ (funext fun current => ?_)
  rw [List.foldlM_cons]
  exact bind_pure _

/-- The segment of a group is folded from the first one of the group. -/
theorem Merged.exists_fold (h : Merged gap group segment) :
    ∃ first rest, group = first :: rest ∧ fold gap first rest = .ok segment := by
  induction h with
  | single segment => exact ⟨segment, [], rfl, rfl⟩
  | more front last ih =>
    obtain ⟨first, rest, rfl, hfold⟩ := ih
    refine ⟨first, rest ++ [_], rfl, ?_⟩
    rw [fold_append_singleton, hfold]
    exact last

/-- A merged block ends when the last of its segments does. -/
theorem stop_of_fold (h : fold gap first rest = .ok segment) :
    segment.stop = latestStop first.stop rest := by
  induction rest using List.reverseRecOn generalizing segment with
  | nil =>
    cases h
    rfl
  | append_singleton rest next ih =>
    rw [fold_append_singleton] at h
    obtain ⟨current, hcurrent, hmerge⟩ := bind_eq_ok_iff.1 h
    obtain ⟨-, hstop, -, -⟩ := Segment.mergeWithin_eq_ok hmerge
    rw [hstop, ih hcurrent, latestStop_append]
    rfl

/-- A merged block starts when its first segment does, if none of the others starts before. -/
theorem start_of_fold (h : fold gap first rest = .ok segment)
    (hstart : ∀ s ∈ rest, first.start ≤ s.start) : segment.start = first.start := by
  induction rest using List.reverseRecOn generalizing segment with
  | nil =>
    cases h
    rfl
  | append_singleton rest next ih =>
    rw [fold_append_singleton] at h
    obtain ⟨current, hcurrent, hmerge⟩ := bind_eq_ok_iff.1 h
    obtain ⟨hearlier, -, -, -⟩ := Segment.mergeWithin_eq_ok hmerge
    obtain ⟨hrest, hnext⟩ := List.forall_mem_append.1 hstart
    rw [hearlier, ih hcurrent hrest]
    exact Duration.earlier_eq_left _ _ (hnext next (List.mem_singleton_self _))

/-- A segment has the number and the voice of another one. -/
structure Leads (first segment : Segment) : Prop where
  sequence_eq : segment.sequence = first.sequence
  speaker_eq : segment.speaker = first.speaker
  language_eq : segment.language = first.language

/-- The lead is kept when a segment comes in that has no lower number. -/
theorem Leads.mergeWithin (h : Leads first current) (hsequence : first.sequence ≤ next.sequence)
    (hmerge : current.mergeWithin next gap = .ok merged) : Leads first merged := by
  obtain ⟨-, -, -, hnumber⟩ := Segment.mergeWithin_eq_ok hmerge
  obtain ⟨hspeaker, hlanguage⟩ := Segment.voice_of_mergeWithin hmerge
  have hlead : (current.inOrder next).1 = current := by
    rw [Segment.inOrder, h.sequence_eq, if_pos hsequence]
  rw [hlead] at hnumber hspeaker hlanguage
  exact ⟨hnumber.trans h.sequence_eq, hspeaker.trans h.speaker_eq, hlanguage.trans h.language_eq⟩

/-- A merged block is named and numbered after its first segment, if no other has a lower number. -/
theorem leads_of_fold (h : fold gap first rest = .ok segment)
    (hsequence : ∀ s ∈ rest, first.sequence ≤ s.sequence) : Leads first segment := by
  induction rest using List.reverseRecOn generalizing segment with
  | nil =>
    cases h
    exact ⟨rfl, rfl, rfl⟩
  | append_singleton rest next ih =>
    rw [fold_append_singleton] at h
    obtain ⟨current, hcurrent, hmerge⟩ := bind_eq_ok_iff.1 h
    obtain ⟨hrest, hnext⟩ := List.forall_mem_append.1 hsequence
    exact (ih hcurrent hrest).mergeWithin (hnext next (List.mem_singleton_self _)) hmerge

end Fold

/-! ## Blocks -/

/-- A segment is made of the segments of a block under the lead of the first one, and ends when the
last of them does. -/
structure Folded (gap : Float) (first : Segment) (rest : List Segment) (segment : Segment) : Prop
    extends Leads first segment where
  fold_eq : fold gap first rest = .ok segment
  start_eq : segment.start = first.start
  stop_mem : ∃ s ∈ first :: rest, s.stop = segment.stop
  stop_le : ∀ s ∈ first :: rest, s.stop ≤ segment.stop

section Blocks

variable {gap : Float} {timeline merged : Timeline} {first segment : Segment} {rest : List Segment}

/-- What merging keeps of a block is known if its segments are in order. -/
theorem folded_of_fold (h : fold gap first rest = .ok segment) (hordered : Ordered (first :: rest))
    (hsequence : (first :: rest).Pairwise (·.sequence ≤ ·.sequence)) :
    Folded gap first rest segment where
  toLeads := leads_of_fold h (List.pairwise_cons.1 hsequence).1
  fold_eq := h
  start_eq := start_of_fold h (List.pairwise_cons.1 hordered).1
  stop_mem := by
    rw [stop_of_fold h]
    exact List.mem_map.1 (latestStop_mem first.stop rest)
  stop_le := by
    rw [stop_of_fold h]
    exact List.forall_mem_cons.2 (le_latestStop first.stop rest)

/-- A merge cuts a timeline into blocks and folds each of them. -/
theorem exists_blocks (h : timeline.mergeAdjacent gap = .ok merged) (hordered : timeline.Ordered)
    (hsequence : timeline.Pairwise (·.sequence ≤ ·.sequence)) :
    ∃ blocks : List (Segment × List Segment),
      (blocks.flatMap fun block => block.1 :: block.2) = timeline ∧
        List.Forall₂ (fun block segment => Folded gap block.1 block.2 segment) blocks merged := by
  have hforall := mergeAdjacent_forall₂ h
  rw [← flatten_groups gap timeline] at hordered hsequence ⊢
  generalize groups gap timeline = groups at hforall hordered hsequence ⊢
  clear h
  -- one block for each segment that merging leaves
  induction hforall with
  | nil => exact ⟨[], rfl, .nil⟩
  | cons hfirst hrest ih =>
    rw [List.flatten_cons] at hordered hsequence ⊢
    obtain ⟨hordered, hordered', -⟩ := List.pairwise_append.1 hordered
    obtain ⟨hsequence, hsequence', -⟩ := List.pairwise_append.1 hsequence
    obtain ⟨first, rest, rfl, hfold⟩ := hfirst.exists_fold
    obtain ⟨blocks, hblocks, hfolded⟩ := ih hordered' hsequence'
    refine ⟨(first, rest) :: blocks, ?_, .cons (folded_of_fold hfold hordered hsequence) hfolded⟩
    rw [List.flatMap_cons, hblocks]

/-- A merged timeline covers the same span. -/
theorem span?_mergeAdjacent (h : timeline.mergeAdjacent gap = .ok merged)
    (hordered : timeline.Ordered) : span? merged = span? timeline := by
  have hforall := mergeAdjacent_forall₂ h
  rw [← flatten_groups gap timeline] at hordered ⊢
  generalize groups gap timeline = groups at hforall hordered ⊢
  cases hforall with
  | nil => rfl
  | @cons group segment groups merged hfirst hrest =>
    obtain ⟨first, rest, rfl, hfold⟩ := hfirst.exists_fold
    obtain ⟨hblock, -, -⟩ := List.pairwise_append.1 hordered
    -- only the first block decides where the span starts
    have hstart := start_of_fold hfold (List.pairwise_cons.1 hblock).1
    calc span? (segment :: merged)
        = some (latestStop segment.stop merged - segment.start) := rfl
      _ = some (latestStop (latestStop first.stop rest) groups.flatten - first.start) := by
          rw [stop_of_fold hfold, latestStop_of_forall₂ _ hrest, hstart]
      _ = some (latestStop first.stop (rest ++ groups.flatten) - first.start) := by
          rw [latestStop_append]
      _ = span? ((first :: rest) :: groups).flatten := rfl

end Blocks

end SpeechTranscript.Timeline
