import SpeechTranscript.Proofs.Text
import SpeechTranscript.Proofs.Timeline.Groups

/-!
# The text of a merged timeline

A merge joins texts in the order of the segments' numbers, a timeline in the order of their starts.
Where these agree, the text of the merged timeline is the text of the timeline.

* `InSequence`: a group in which the numbers do not put a later text before an earlier one.
* `Merged.text`: the text of the segment made of such a group.
* `joinedTexts_mergeAdjacent`: the texts of the timeline, merged or not.
-/

namespace SpeechTranscript

/-- A segment whose text has no blanks around it. -/
def Segment.Tidy (s : Segment) : Prop := Text.Trimmed s.text.chars

instance (s : Segment) : Decidable s.Tidy := inferInstanceAs (Decidable (Text.Trimmed _))

/-- A tidy segment is empty exactly if there is nothing in its text. -/
theorem Segment.Tidy.isEmpty_iff {s : Segment} (h : s.Tidy) :
    s.isEmpty = true ↔ s.text.content = "" := by
  constructor
  · intro hempty
    have hnil : s.text.content.toList = [] := h.eq_nil hempty
    simpa using hnil
  · intro hcontent
    rw [isEmpty, Text.isEmpty, Text.chars, hcontent]
    rfl

namespace Timeline

open Text (spaced)

/-! ## Texts of a timeline -/

section JoinedTexts

variable {s : Segment} {front back : Timeline}

/-- A blank segment adds nothing to the text, any other its text with a space behind it. -/
theorem joinedTexts_cons (hs : s.Tidy) (hback : ∀ t ∈ back, t.Tidy) :
    joinedTexts (s :: back) = spaced s.text.content (joinedTexts back) := by
  unfold joinedTexts
  cases hempty : s.isEmpty with
  | true =>
    rw [hs.isEmpty_iff.1 hempty, Text.spaced_empty_left, List.filter_cons_of_neg (by simp [hempty])]
  | false =>
    have hcontent : s.text.content ≠ "" := fun h => by
      rw [hs.isEmpty_iff.2 h] at hempty
      contradiction
    rw [List.filter_cons_of_pos (by simp [hempty]), List.map_cons]
    -- a space stands between only if some text follows
    cases hrest : back.filter (!·.isEmpty) with
    | nil => rw [List.map_nil, String.intercalate_singleton, String.intercalate_nil,
        Text.spaced_empty_right]
    | cons t more =>
      have hmem : t ∈ back.filter (!·.isEmpty) := hrest ▸ List.mem_cons_self
      obtain ⟨ht, hsome⟩ := List.mem_filter.1 hmem
      have htext : t.text.content ≠ "" := fun h => by
        rw [(hback t ht).isEmpty_iff.2 h] at hsome
        contradiction
      have hjoined : " ".intercalate (t.text.content :: more.map (·.text.content)) ≠ "" := by
        cases more with
        | nil => simpa using htext
        | cons u more => simp [htext]
      rw [List.map_cons, String.intercalate_cons_cons, Text.spaced_of_ne hcontent hjoined]

theorem joinedTexts_singleton (hs : s.Tidy) : joinedTexts [s] = s.text.content := by
  rw [joinedTexts_cons hs (List.forall_mem_nil _)]
  exact Text.spaced_empty_right _

/-- The texts of two parts are joined as those of one. -/
theorem joinedTexts_append (hfront : ∀ t ∈ front, t.Tidy) (hback : ∀ t ∈ back, t.Tidy) :
    joinedTexts (front ++ back) = spaced (joinedTexts front) (joinedTexts back) := by
  induction front with
  | nil => rfl
  | cons s front ih =>
    obtain ⟨hs, hfront⟩ := List.forall_mem_cons.1 hfront
    have hall : ∀ t ∈ front ++ back, t.Tidy := fun t ht =>
      (List.mem_append.1 ht).elim (hfront t) (hback t)
    rw [List.cons_append, joinedTexts_cons hs hall, joinedTexts_cons hs hfront, ih hfront,
      Text.spaced_assoc]

/-- There is no text exactly when all segments are blank. -/
theorem joinedTexts_eq_empty_iff (hfront : ∀ t ∈ front, t.Tidy) :
    joinedTexts front = "" ↔ ∀ t ∈ front, t.isEmpty = true := by
  induction front with
  | nil => exact iff_of_true rfl nofun
  | cons s front ih =>
    obtain ⟨hs, hfront⟩ := List.forall_mem_cons.1 hfront
    rw [joinedTexts_cons hs hfront, Text.spaced_eq_empty_iff, List.forall_mem_cons, ih hfront,
      hs.isEmpty_iff]

/-- The formatted text depends on the joined texts only. -/
theorem fullText_congr (hfront : front ≠ []) (hback : back ≠ [])
    (h : joinedTexts front = joinedTexts back) : fullText front = fullText back := by
  rw [fullText, fullText, if_neg (by simpa using hfront), if_neg (by simpa using hback), h]

end JoinedTexts

/-! ## The text of a group -/

/-- Wherever a segment with text follows others with text, its number is no lower than the lowest
number before it. -/
def InSequence (group : Timeline) : Prop :=
  ∀ i (h : i < group.length), group[i].isEmpty = false →
    (∃ s ∈ group.take i, s.isEmpty = false) → ∃ s ∈ group.take i, s.sequence ≤ group[i].sequence

instance (group : Timeline) : Decidable group.InSequence :=
  inferInstanceAs (Decidable (∀ i (h : i < group.length), group[i].isEmpty = false →
    (∃ s ∈ group.take i, s.isEmpty = false) → ∃ s ∈ group.take i, s.sequence ≤ group[i].sequence))

section InSequence

variable {group : Timeline} {next : Segment}

/-- Numbers that never fall put no later text before an earlier one. -/
theorem inSequence_of_pairwise (h : group.Pairwise (·.sequence ≤ ·.sequence)) :
    InSequence group := by
  rintro i hi - ⟨s, hs, -⟩
  obtain ⟨j, hj, rfl⟩ := List.mem_take_iff_getElem.1 hs
  rw [List.pairwise_iff_getElem] at h
  exact ⟨_, hs, h j i (by omega) hi (by omega)⟩

theorem InSequence.front (h : InSequence (group ++ [next])) : InSequence group := by
  intro i hi hsome hbefore
  have hlt : i < (group ++ [next]).length := by
    rw [List.length_append]
    omega
  have hi' := h i hlt
  rw [List.getElem_append_left hi, List.take_append_of_le_length hi.le] at hi'
  exact hi' hsome hbefore

theorem InSequence.last (h : InSequence (group ++ [next])) (hsome : next.isEmpty = false)
    (hbefore : ∃ s ∈ group, s.isEmpty = false) : ∃ s ∈ group, s.sequence ≤ next.sequence := by
  have hlt : group.length < (group ++ [next]).length := by simp
  have hlast := h group.length hlt
  rw [List.getElem_concat_length rfl, List.take_left] at hlast
  exact hlast hsome hbefore

end InSequence

section Merge

variable {gap : Float} {group timeline merged : Timeline} {segment : Segment}

/-- No number of a group is lower than the number of its segment. -/
theorem Merged.sequence_le (h : Merged gap group segment) :
    ∀ s ∈ group, segment.sequence ≤ s.sequence := by
  induction h with
  | single segment =>
    intro s hs
    rw [List.mem_singleton.1 hs]
    exact UInt32.le_refl _
  | @more group current next merged front last ih =>
    obtain ⟨-, -, -, hsequence⟩ := Segment.mergeWithin_eq_ok last
    -- the merged segment is numbered after the one that leads
    rw [hsequence, Segment.inOrder]
    intro s hs
    split
    · rename_i hle
      rcases List.mem_append.1 hs with hs | hs
      · exact ih s hs
      · rw [List.mem_singleton.1 hs]
        exact hle
    · rename_i hgt
      rcases List.mem_append.1 hs with hs | hs
      · exact UInt32.le_trans (UInt32.le_of_lt (UInt32.not_le.1 hgt)) (ih s hs)
      · rw [List.mem_singleton.1 hs]
        exact UInt32.le_refl _

/-- The segment of a group in sequence has the texts of the group. -/
theorem Merged.text (h : Merged gap group segment) (htidy : ∀ s ∈ group, s.Tidy)
    (hsequence : InSequence group) : segment.Tidy ∧ segment.text.content = joinedTexts group := by
  -- on the group: the segment at hand has the texts so far, and the next one comes behind them
  induction h with
  | single segment =>
    have hs := htidy segment (List.mem_singleton_self _)
    exact ⟨hs, (joinedTexts_singleton hs).symm⟩
  | @more group current next merged front last ih =>
    have hgroup : ∀ s ∈ group, s.Tidy := fun s hs => htidy s (List.mem_append_left _ hs)
    have hnext : next.Tidy := htidy next (List.mem_append_right _ (List.mem_singleton_self _))
    obtain ⟨hcurrent, htext⟩ := ih hgroup hsequence.front
    obtain ⟨-, -, hcontent, -⟩ := Segment.mergeWithin_eq_ok last
    have hmerged : merged.Tidy := by
      rw [Segment.Tidy, Text.chars, hcontent]
      exact Text.trimmed_toList _
    refine ⟨hmerged, ?_⟩
    rw [joinedTexts_append hgroup (fun s hs => List.mem_singleton.1 hs ▸ hnext),
      joinedTexts_singleton hnext, ← htext, hcontent, Segment.joinTexts, Segment.inOrder]
    by_cases hle : current.sequence ≤ next.sequence
    · rw [if_pos hle]
      exact Text.trimmed_append_space hcurrent hnext
    · -- the later segment leads, which makes no difference if one of the texts is missing
      rw [if_neg hle]
      have hmissing : next.text.content = "" ∨ current.text.content = "" := by
        rw [htext, joinedTexts_eq_empty_iff hgroup, ← hnext.isEmpty_iff]
        by_contra hboth
        rw [not_or] at hboth
        obtain ⟨hsome, hbefore⟩ := hboth
        obtain ⟨t, ht, hspoken⟩ := not_forall₂.1 hbefore
        obtain ⟨s, hs, hlow⟩ :=
          hsequence.last (by simpa using hsome) ⟨t, ht, by simpa using hspoken⟩
        exact hle (UInt32.le_trans (front.sequence_le s hs) hlow)
      refine (Text.trimmed_append_space hnext hcurrent).trans ?_
      rcases hmissing with hempty | hempty <;>
        rw [hempty, Text.spaced_empty_left, Text.spaced_empty_right]

/-- Segments that take the places of groups in sequence have the texts of the groups. -/
theorem joinedTexts_of_forall₂ {groups : List Timeline}
    (h : List.Forall₂ (Merged gap) groups merged)
    (htidy : ∀ s ∈ groups.flatten, s.Tidy) (hsequence : ∀ group ∈ groups, InSequence group) :
    (∀ s ∈ merged, s.Tidy) ∧ joinedTexts merged = joinedTexts groups.flatten := by
  induction h with
  | nil => exact ⟨nofun, rfl⟩
  | @cons group segment groups merged hfirst hrest ih =>
    rw [List.flatten_cons, List.forall_mem_append] at htidy
    obtain ⟨hgroup, hgroups⟩ := htidy
    rw [List.forall_mem_cons] at hsequence
    -- the first segment has the text of the first group
    obtain ⟨hsegment, htext⟩ := hfirst.text hgroup hsequence.1
    obtain ⟨hmerged, hjoined⟩ := ih hgroups hsequence.2
    refine ⟨List.forall_mem_cons.2 ⟨hsegment, hmerged⟩, ?_⟩
    rw [joinedTexts_cons hsegment hmerged, List.flatten_cons, joinedTexts_append hgroup hgroups,
      htext, hjoined]

/-- Merging changes nothing in the text of a timeline whose groups are in sequence. -/
theorem joinedTexts_mergeAdjacent (hmerge : timeline.mergeAdjacent gap = .ok merged)
    (htidy : ∀ s ∈ timeline, s.Tidy) (hsequence : ∀ group ∈ groups gap timeline, InSequence group) :
    joinedTexts merged = joinedTexts timeline := by
  have h := joinedTexts_of_forall₂ (mergeAdjacent_forall₂ hmerge)
    (by rwa [flatten_groups]) hsequence
  rw [h.2, flatten_groups]

end Merge

end Timeline

end SpeechTranscript
