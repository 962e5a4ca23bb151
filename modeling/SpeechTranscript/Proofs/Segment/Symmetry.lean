import SpeechTranscript.Proofs.Segment.Split
import SpeechTranscript.Proofs.Segment.Union
import SpeechTranscript.Proofs.Timeline.Adjacency

/-!
# Merging from either side

Segments with different numbers can be merged from either side. Whether they are close enough does
not depend on the side, nor does which of them leads, and so neither does the text. The mean score
is the same double, because sums of doubles are; but it is equal to itself only if it is a number,
and it is none if one of the two scores is none. What does depend on the side is the id, and if two
starts or two ends are zeros of different signs, which of these is taken.

* `alike_union`: the two segments that can be made of two.
* `mirrored_mergeWithin`: what a merge comes to from one side and from the other.
* `not_beq_unscored`: a merge of a score that is no number, from both sides.
-/

namespace SpeechTranscript.Segment

variable (a b : Segment)

/-! ## Which can be merged -/

theorem overlaps_comm : a.overlaps b = b.overlaps a := by
  rw [overlaps, overlaps, Bool.or_comm]

theorem isAdjacent_comm (gap : Float) : a.isAdjacent b gap = b.isAdjacent a gap :=
  adjacentStretches_comm

theorem mergeable_comm (gap : Float) : a.mergeable b gap = b.mergeable a gap := by
  rw [mergeable, mergeable, overlaps_comm, isAdjacent_comm]

/-! ## What they become -/

variable {a b}

/-- Which one leads is seen from their numbers, unless these are equal. -/
theorem inOrder_comm (h : a.sequence ≠ b.sequence) : a.inOrder b = b.inOrder a := by
  unfold inOrder
  split
  · rename_i hab
    rw [if_neg fun hba => h (UInt32.le_antisymm hab hba)]
  · rename_i hab
    rw [if_pos ((UInt32.le_total a.sequence b.sequence).resolve_left hab)]

/-- The number decides which text comes first, whichever segment is merged into the other. -/
theorem joinedText_comm (h : a.sequence ≠ b.sequence) : a.joinedText b = b.joinedText a := by
  rw [joinedText, joinedText, inOrder_comm h]

/-- Two segments that differ in their ids and in the signs of zeros only. -/
structure Alike (a b : Segment) : Prop where
  start_beq : (a.start == b.start) = true
  stop_beq : (a.stop == b.stop) = true
  text_eq : a.text = b.text
  /-- The same double, so equal as a number if it is one. -/
  confidence_eq : a.confidence = b.confidence
  sequence_eq : a.sequence = b.sequence
  speaker_eq : a.speaker = b.speaker
  language_eq : a.language = b.language

/-- What does not depend on the scores is the same from both sides. -/
theorem alike_union (h : a.sequence ≠ b.sequence) : (a.union b).Alike (b.union a) where
  start_beq := Duration.earlier_beq_comm _ _
  stop_beq := Duration.later_beq_comm _ _
  text_eq := joinedText_comm h
  confidence_eq := Confidence.weighted_comm _ _ _ _
  sequence_eq := by
    show (a.inOrder b).1.sequence = (b.inOrder a).1.sequence
    rw [inOrder_comm h]
  speaker_eq := by
    show (a.inOrder b).1.speaker = (b.inOrder a).1.speaker
    rw [inOrder_comm h]
  language_eq := by
    show (a.inOrder b).1.language = (b.inOrder a).1.language
    rw [inOrder_comm h]

/-! ## Merging -/

variable {gap : Float}

/-- What a merge of two segments comes to, from the side of each. The scores are equal as numbers
exactly if they are proper. For scores that operations on scores can give, which are proper or no
number, this is so exactly if both segments have had proper ones. -/
inductive Mirrored (a b : Segment) (gap : Float) : Prop
  | apart (there : a.mergeWithin b gap = .error (.notMergeable a.id b.id))
      (back : b.mergeWithin a gap = .error (.notMergeable b.id a.id))
  | tooLong (n : Nat) (there : a.mergeWithin b gap = .error (.value (.textTooLong n)))
      (back : b.mergeWithin a gap = .error (.value (.textTooLong n)))
  | united (merged merged' : Segment) (there : a.mergeWithin b gap = .ok merged)
      (back : b.mergeWithin a gap = .ok merged') (alike : merged.Alike merged')
      (confidence_beq_iff :
        (merged.confidence == merged'.confidence) = true ↔ merged.confidence.Proper)
      (proper_iff : a.confidence.Possible → b.confidence.Possible →
        (merged.confidence.Proper ↔ a.confidence.Proper ∧ b.confidence.Proper))

/-- A merge of two segments with different numbers comes to the same from either side. -/
theorem mirrored_mergeWithin (h : a.sequence ≠ b.sequence) : Mirrored a b gap := by
  have hthere := a.mergeWithin_eq b gap
  have hback := b.mergeWithin_eq a gap
  -- both merges ask for the same closeness and the same room
  rw [mergeable_comm b a, ← joinedText_comm h] at hback
  cases hclose : a.mergeable b gap with
  | false =>
    rw [hclose, if_neg Bool.false_ne_true] at hthere hback
    exact .apart hthere hback
  | true =>
    rw [hclose, if_pos rfl] at hthere hback
    by_cases hroom : (a.joinedText b).charCount ≤ longestText
    · rw [if_pos hroom] at hthere hback
      refine .united _ _ hthere hback (alike_union h) ?_ (a.proper_union_iff b)
      -- the two unions have one score, which may differ from itself only if it is no number
      rw [← (alike_union h).confidence_eq]
      exact (Confidence.possible_weighted _ _ _ _).beq_self_iff
    · rw [if_neg hroom] at hthere hback
      exact .tooLong _ hthere hback

/-- The next two words, over the same stretch but from a zero with a sign. -/
def twoMoreWords : Segment :=
  { twoWords with
    id := "segment_2"
    start := ⟨-0.0, by decide +kernel, by decide +kernel⟩
    text := ⟨"my friend", true⟩
    sequence := 2
    start_lt_stop := by decide +kernel
    blank_of_short := by decide +kernel }

/-- The zero that a merged segment starts at has the sign it has in the segment that comes first. -/
theorem mirrored_signedZeros : twoWords.sequence ≠ twoMoreWords.sequence ∧
    Mirrored twoWords twoMoreWords adjacencyGap ∧
    (twoWords.union twoMoreWords).start ≠ (twoMoreWords.union twoWords).start :=
  ⟨by decide, mirrored_mergeWithin (by decide), by decide +kernel⟩

/-- The first two words with a mean of two certain scores whose weights are together too large for a
double. -/
def unscoredWords : Segment :=
  { twoWords with confidence := .weighted .certain 1e308 .certain 1e308 }

/-- Merging them with the next two is carried out from both sides, and neither of the scores that
this gives is equal to the other. -/
theorem not_beq_unscored : unscoredWords.sequence ≠ twoMoreWords.sequence ∧
    ∃ merged merged', unscoredWords.mergeWithin twoMoreWords adjacencyGap = .ok merged ∧
      twoMoreWords.mergeWithin unscoredWords adjacencyGap = .ok merged' ∧
      (merged.confidence == merged'.confidence) = false :=
  ⟨by decide, unscoredWords.union twoMoreWords, twoMoreWords.union unscoredWords,
    mergeWithin_eq_ok_iff.2 ⟨by decide +kernel, by decide +kernel, rfl⟩,
    mergeWithin_eq_ok_iff.2 ⟨by decide +kernel, by decide +kernel, rfl⟩, by decide +kernel⟩

end SpeechTranscript.Segment
