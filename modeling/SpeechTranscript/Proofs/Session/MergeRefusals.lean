import SpeechTranscript.Proofs.Segment.Split
import SpeechTranscript.Proofs.Session.Effect
import SpeechTranscript.Proofs.Text.Words
import SpeechTranscript.Proofs.Timeline.Groups

/-!
# Why a merge is refused

Two segments can be merged if they are close enough and their text is not too long. That the merged
segment is too short for its text is never the reason. A merge of a whole timeline only unites what
is adjacent, so all that can stop it is a text that would be too long.

* `Segment.outcome_mergeWithin`: two segments.
* `Timeline.refusal_of_mergeAdjacent`: a timeline.
* `Session.outcome_merges`: both of them, in a session too.
-/

namespace SpeechTranscript

/-! ## Two segments -/

namespace Segment

/-- What a merge of two segments comes to. -/
structure MergeOutcome (a b : Segment) (gap : Float) : Prop where
  succeeds_iff : (∃ merged, a.mergeWithin b gap = .ok merged) ↔
    (a.overlaps b = true ∨ a.isAdjacent b gap = true) ∧ (a.joinedText b).charCount ≤ longestText
  /-- It is refused as one of segments that are too far apart, or of texts that are too long. -/
  refused_iff : ∀ refusal, a.mergeWithin b gap = .error refusal ↔
    a.mergeable b gap = false ∧ refusal = .notMergeable a.id b.id ∨
      a.mergeable b gap = true ∧ longestText < (a.joinedText b).charCount ∧
        refusal = .value (.textTooLong (a.joinedText b).charCount)
  covers : ∀ merged, a.mergeWithin b gap = .ok merged → Timeline.Covers [a, b] merged

theorem outcome_mergeWithin (a b : Segment) (gap : Float) : a.MergeOutcome b gap where
  succeeds_iff := by
    simp only [mergeWithin_eq_ok_iff, mergeable, Bool.or_eq_true]
    constructor
    · rintro ⟨merged, hclose, hroom, -⟩
      exact ⟨hclose, hroom⟩
    · rintro ⟨hclose, hroom⟩
      exact ⟨a.union b, hclose, hroom, rfl⟩
  refused_iff _ := mergeWithin_eq_error_iff
  covers _ h := ((Timeline.Merged.single a).more h).covers

/-- All characters of two texts but the blanks are in the joined text. -/
theorem letters_le_charCount_joinedText (a b : Segment) :
    (a.text.chars.filter (!Text.isBlank ·)).length +
      (b.text.chars.filter (!Text.isBlank ·)).length ≤ (a.joinedText b).charCount := by
  have hletters : ∀ first second : Text,
      (first.chars.filter (!Text.isBlank ·)).length +
        (second.chars.filter (!Text.isBlank ·)).length ≤ (joinTexts first second).length := by
    intro first second
    have hspace : Text.isBlank ' ' = true := by decide
    have hkept := List.length_filter_le (!Text.isBlank ·) (joinTexts first second).toList
    rw [String.length_toList, chars_joinTexts, Text.filter_trim, List.filter_append,
      List.filter_cons_of_neg (by simp [hspace]), List.length_append] at hkept
    exact hkept
  show _ ≤ (joinTexts (a.inOrder b).1.text (a.inOrder b).2.text).length
  rw [inOrder]
  split
  · exact hletters _ _
  · -- the other text comes first, which does not change the sum
    rw [Nat.add_comm]
    exact hletters _ _

end Segment

/-! ## Timelines -/

namespace Timeline

variable {gap : Float} {current : Segment} {timeline rest : Timeline} {refusal : Refusal}

/-- A refusal that tells of a text longer than a text may be. -/
def TooLong (refusal : Refusal) : Prop :=
  ∃ n, longestText < n ∧ refusal = .value (.textTooLong n)

/-- Folding is refused only for a text that is too long. -/
theorem refusal_of_foldAdjacent (h : foldAdjacent gap current rest = .error refusal) :
    TooLong refusal := by
  -- on what is left of the timeline, as `foldAdjacent` goes through it
  induction rest generalizing current with
  | nil => contradiction
  | cons next rest ih =>
    rw [foldAdjacent] at h
    split at h
    · rename_i hadjacent
      rcases bind_eq_error_iff.1 h with h | ⟨united, -, h⟩
      · rcases Segment.mergeWithin_eq_error_iff.1 h with ⟨hfar, -⟩ | ⟨-, hlong, rfl⟩
        · -- what is adjacent is close enough
          simp [Segment.mergeable, hadjacent] at hfar
        · exact ⟨_, hlong, rfl⟩
      · exact ih h
    · rcases bind_eq_error_iff.1 h with h | ⟨more, -, h⟩
      · exact ih h
      · contradiction

/-- Merging folds group by group, so it is refused for nothing else. -/
theorem refusal_of_mergeAdjacent (h : timeline.mergeAdjacent gap = .error refusal) :
    TooLong refusal := by
  cases timeline with
  | nil => contradiction
  | cons first rest => exact refusal_of_foldAdjacent h

end Timeline

/-! ## Sessions -/

namespace Session

variable {s next : Session} {gap : Float} {refusal : Refusal}

/-- While a session is processing, only a text that would be too long keeps its segments from being
merged. -/
theorem refusal_of_mergeAdjacent (hprocessing : s.status = .processing)
    (h : mergeAdjacent gap s = .error refusal next) : next = s ∧ Timeline.TooLong refusal := by
  rw [mergeAdjacent_of_processing hprocessing] at h
  split at h
  · contradiction
  · cases hmerge : s.segments.mergeAdjacent gap with
    | ok segments =>
      rw [hmerge] at h
      contradiction
    | error refusal' =>
      rw [hmerge] at h
      cases h
      exact ⟨rfl, Timeline.refusal_of_mergeAdjacent hmerge⟩

/-- How two segments are merged, and what can keep a session from merging its own. -/
theorem outcome_merges (gap : Float) : (∀ a b : Segment, a.MergeOutcome b gap) ∧
    ∀ s : Session, s.status = .processing → ∀ refusal next,
      mergeAdjacent gap s = .error refusal next → next = s ∧ Timeline.TooLong refusal :=
  ⟨fun a b => Segment.outcome_mergeWithin a b gap,
    fun _ hprocessing _ _ => refusal_of_mergeAdjacent hprocessing⟩

/-- Two neighbours whose texts are too long together cannot be merged. -/
theorem exists_refusal_of_adjacent {a b : Segment} (hprocessing : s.status = .processing)
    (hsegments : s.segments = [a, b]) (hadjacent : a.isAdjacent b gap = true)
    (hlong : longestText < (a.joinedText b).charCount) :
    ∃ refusal, mergeAdjacent gap s = .error refusal s := by
  have hmerge : a.mergeWithin b gap = .error (.value (.textTooLong (a.joinedText b).charCount)) :=
    Segment.mergeWithin_eq_error_iff.2 (.inr ⟨by simp [Segment.mergeable, hadjacent], hlong, rfl⟩)
  have hfold : s.segments.mergeAdjacent gap =
      .error (.value (.textTooLong (a.joinedText b).charCount)) := by
    rw [hsegments, Timeline.mergeAdjacent, Timeline.foldAdjacent, if_pos hadjacent, hmerge]
    rfl
  rw [mergeAdjacent_of_processing hprocessing, if_neg (by simp [hsegments]), hfold]
  exact ⟨_, rfl⟩

/-- A text of some letters. -/
def letters (n : ℕ) : Text := ⟨String.ofList (List.replicate n 'a'), true⟩

theorem length_letters (n : ℕ) : ((letters n).chars.filter (!Text.isBlank ·)).length = n := by
  rw [letters, Text.chars, String.toList_ofList, List.filter_replicate_of_pos (by decide),
    List.length_replicate]

/-- A segment with more than half as many letters as a text may have. -/
def crowdedSegment (start stop : Duration) (order : start < stop)
    (long : tooShortForSpeech start stop = false) : Segment where
  id := "a"
  start
  stop
  text := letters 600000
  confidence := .certain
  sequence := 1
  speaker := none
  language := none
  start_lt_stop := order
  blank_of_short h := by
    rw [long] at h
    contradiction

/-- The first second. -/
def crowdedFirst : Segment :=
  crowdedSegment .zero Segment.twoWords.stop Segment.twoWords.start_lt_stop (by decide +kernel)

/-- All the time after it. -/
def crowdedRest : Segment :=
  crowdedSegment Segment.twoWords.stop .longest (by decide +kernel) (by decide +kernel)

def crowdedSession : Session :=
  { new "1" "audio" .auto with
    status := .processing
    segments := [crowdedFirst, crowdedRest] }

/-- There are sessions in which a text would be too long. -/
theorem outcome_merges_crowdedSession : crowdedSession.status = .processing ∧
    ∃ refusal, mergeAdjacent Segment.adjacencyGap crowdedSession = .error refusal crowdedSession ∧
      Timeline.TooLong refusal := by
  have hlong : longestText < (crowdedFirst.joinedText crowdedRest).charCount := by
    have hle := Segment.letters_le_charCount_joinedText crowdedFirst crowdedRest
    rw [show crowdedFirst.text = letters 600000 from rfl,
      show crowdedRest.text = letters 600000 from rfl, length_letters] at hle
    rw [longestText]
    omega
  have hadjacent : crowdedFirst.isAdjacent crowdedRest Segment.adjacencyGap = true := by
    decide +kernel
  obtain ⟨refusal, h⟩ := exists_refusal_of_adjacent (s := crowdedSession) rfl rfl hadjacent hlong
  obtain ⟨-, htold⟩ := (outcome_merges Segment.adjacencyGap).2 crowdedSession rfl refusal _ h
  exact ⟨rfl, refusal, h, htold⟩

end Session

end SpeechTranscript
