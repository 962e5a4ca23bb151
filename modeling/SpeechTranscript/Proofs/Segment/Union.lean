import SpeechTranscript.Proofs.Confidence.Means
import SpeechTranscript.Proofs.Segment
import SpeechTranscript.Proofs.Text
import SpeechTranscript.Segment.Merge

/-!
# The union of two segments

Two segments that are merged become one over the time of both. It starts before it ends, as they do,
and it is too short for text only if they both are, and then neither of them has any. So a merge
never makes a segment that cannot be built: the two have to be close enough, and their text short
enough, and nothing else is asked of them.

* `union`: the segment that is made of two.
* `mergeWithin_eq`: what a merge of two segments comes to.
-/

namespace SpeechTranscript.Segment

section Union

variable (a b : Segment)

/-! ## What it is made of -/

/-- The text of two segments, in the order of their numbers. -/
def joinedText : Text := ⟨joinTexts (a.inOrder b).1.text (a.inOrder b).2.text, true⟩

/-- Two texts are joined with a space between and trimmed. -/
theorem chars_joinTexts (first second : Text) :
    (joinTexts first second).toList = Text.trim (first.chars ++ ' ' :: second.chars) := by
  have hchars : (first.content ++ " " ++ second.content).toList =
      first.chars ++ [' '] ++ second.chars := by
    rw [String.toList_append, String.toList_append]
    rfl
  rw [joinTexts, Text.trimmed, String.toList_ofList, hchars, List.append_assoc,
    List.singleton_append]

/-- Two texts joined are blank if both of them are. -/
theorem allBlank_joinTexts (first second : Text) :
    Text.allBlank (joinTexts first second).toList = (first.isEmpty && second.isEmpty) := by
  have hspace : Text.isBlank ' ' = true := by decide
  rw [chars_joinTexts, Text.allBlank_trim]
  show List.all _ _ = _
  rw [List.all_append, List.all_cons, hspace, Bool.true_and]
  rfl

/-- A joined text is empty only if both texts are. -/
theorem isEmpty_joinedText : (a.joinedText b).isEmpty = (a.isEmpty && b.isEmpty) := by
  have hblank := allBlank_joinTexts (a.inOrder b).1.text (a.inOrder b).2.text
  refine hblank.trans ?_
  rw [inOrder]
  split
  · rfl
  · exact Bool.and_comm _ _

/-- The earlier start of two segments is before the later end. -/
theorem earlier_lt_later : Duration.earlier a.start b.start < Duration.later a.stop b.stop := by
  have hproper := a.start_lt_stop
  have hstart := (Duration.earlier_le a.start b.start).1
  have hstop := (Duration.le_later a.stop b.stop).1
  rw [Duration.lt_iff] at hproper ⊢
  rw [Duration.le_iff] at hstart hstop
  linarith

/-- If their whole time is too short for text, so is the time of each, and there is none. -/
theorem isEmpty_joinedText_of_short
    (h : tooShortForSpeech (.earlier a.start b.start) (.later a.stop b.stop) = true) :
    (a.joinedText b).isEmpty = true := by
  obtain ⟨hstart, hstart'⟩ := Duration.earlier_le a.start b.start
  obtain ⟨hstop, hstop'⟩ := Duration.le_later a.stop b.stop
  have ha : a.isEmpty = true :=
    a.blank_of_short (tooShortForSpeech_of_part hstart start_le_stop hstop h)
  have hb : b.isEmpty = true :=
    b.blank_of_short (tooShortForSpeech_of_part hstart' start_le_stop hstop' h)
  rw [isEmpty_joinedText, ha, hb]
  rfl

/-- The segment over the time of two, with the text of both. -/
def union : Segment where
  id := a.id ++ "_" ++ b.id
  start := .earlier a.start b.start
  stop := .later a.stop b.stop
  text := a.joinedText b
  confidence := a.confidence.weighted a.duration.seconds b.confidence b.duration.seconds
  sequence := (a.inOrder b).1.sequence
  speaker := (a.inOrder b).1.speaker
  language := (a.inOrder b).1.language
  start_lt_stop := a.earlier_lt_later b
  blank_of_short := a.isEmpty_joinedText_of_short b

/-- The score of a union is proper if those of the two segments are. -/
theorem proper_union (ha : a.confidence.Proper) (hb : b.confidence.Proper) :
    (a.union b).confidence.Proper :=
  ha.weighted hb (Confidence.weight_seconds _) (Confidence.weight_seconds _)

/-- Lengths of time are small enough for the scores they weight, so nothing but the score of one of
the two can make the score of both no number. -/
theorem proper_union_iff (ha : a.confidence.Possible) (hb : b.confidence.Possible) :
    (a.union b).confidence.Proper ↔ a.confidence.Proper ∧ b.confidence.Proper := by
  constructor
  · intro h
    obtain ⟨hfirst, hsecond, -⟩ := (ha.proper_weighted_iff hb).1 h
    exact ⟨hfirst, hsecond⟩
  · rintro ⟨hfirst, hsecond⟩
    exact a.proper_union b hfirst hsecond

/-- Nothing stands in the way of building it. -/
theorem build_union : build (a.id ++ "_" ++ b.id) (.earlier a.start b.start)
    (.later a.stop b.stop) (a.joinedText b)
    (a.confidence.weighted a.duration.seconds b.confidence b.duration.seconds)
    (a.inOrder b).1.sequence = .ok { a.union b with speaker := none, language := none } :=
  build_of_room (a.earlier_lt_later b) (a.isEmpty_joinedText_of_short b)

/-! ## Merging -/

/-- Segments that are close enough are united, if that does not make their text too long. -/
theorem mergeWithin_eq (gap : Float) : a.mergeWithin b gap =
    if a.mergeable b gap then
      if (a.joinedText b).charCount ≤ longestText then .ok (a.union b)
      else .error (.value (.textTooLong (a.joinedText b).charCount))
    else .error (.notMergeable a.id b.id) := by
  unfold mergeWithin
  split
  · have htext := finalized_eq (joinTexts (a.inOrder b).1.text (a.inOrder b).2.text)
    dsimp only
    rw [htext]
    change _ = if (joinTexts _ _).length ≤ longestText then _ else _
    split
    · -- past the text nothing can refuse, as the union is well formed
      exact bind_eq_ok_iff.2 ⟨a.joinedText b, rfl, bind_eq_ok_iff.2 ⟨_, a.build_union b, rfl⟩⟩
    · rfl
  · rfl

variable {a b} {merged : Segment} {gap : Float}

/-- Two segments are merged exactly if they are close enough and there is room for their texts, and
then it is their union that comes of it. -/
theorem mergeWithin_eq_ok_iff : a.mergeWithin b gap = .ok merged ↔
    a.mergeable b gap = true ∧ (a.joinedText b).charCount ≤ longestText ∧ merged = a.union b := by
  rw [mergeWithin_eq]
  split
  · rename_i hclose
    split
    · rename_i hroom
      simp [hclose, hroom, eq_comm]
    · rename_i hlong
      simp [hlong]
  · rename_i hfar
    simp [hfar]

/-- There are two reasons to refuse a merge, and no third one. -/
theorem mergeWithin_eq_error_iff {refusal : Refusal} : a.mergeWithin b gap = .error refusal ↔
    a.mergeable b gap = false ∧ refusal = .notMergeable a.id b.id ∨
      a.mergeable b gap = true ∧ longestText < (a.joinedText b).charCount ∧
        refusal = .value (.textTooLong (a.joinedText b).charCount) := by
  rw [mergeWithin_eq]
  split
  · rename_i hclose
    split
    · rename_i hroom
      simp [hclose, hroom]
    · rename_i hlong
      simp [hclose, not_le.1 hlong, eq_comm]
  · rename_i hfar
    simp [hfar, eq_comm]

/-- A merged segment covers both of its parts. Their texts and numbers are taken in the order of the
numbers. -/
theorem mergeWithin_eq_ok (h : a.mergeWithin b gap = .ok merged) :
    merged.start = Duration.earlier a.start b.start ∧ merged.stop = Duration.later a.stop b.stop ∧
      merged.text.content = joinTexts (a.inOrder b).1.text (a.inOrder b).2.text ∧
      merged.sequence = (a.inOrder b).1.sequence := by
  obtain ⟨-, -, rfl⟩ := mergeWithin_eq_ok_iff.1 h
  exact ⟨rfl, rfl, rfl, rfl⟩

/-- A merged segment has the mean score, weighted by length. -/
theorem confidence_of_mergeWithin (h : a.mergeWithin b gap = .ok merged) :
    merged.confidence =
      a.confidence.weighted a.duration.seconds b.confidence b.duration.seconds := by
  obtain ⟨-, -, rfl⟩ := mergeWithin_eq_ok_iff.1 h
  rfl

/-- A merged segment has a score that operations on scores can give. -/
theorem possible_mergeWithin (h : a.mergeWithin b gap = .ok merged) :
    merged.confidence.Possible := by
  rw [confidence_of_mergeWithin h]
  exact Confidence.possible_weighted _ _ _ _

/-- A merged segment has the speaker and the language of the part with the lower number. -/
theorem voice_of_mergeWithin (h : a.mergeWithin b gap = .ok merged) :
    merged.speaker = (a.inOrder b).1.speaker ∧ merged.language = (a.inOrder b).1.language := by
  obtain ⟨-, -, rfl⟩ := mergeWithin_eq_ok_iff.1 h
  exact ⟨rfl, rfl⟩

/-- A merged segment has text if one of its parts has. -/
theorem isEmpty_mergeWithin (h : a.mergeWithin b gap = .ok merged) :
    merged.isEmpty = (a.isEmpty && b.isEmpty) := by
  obtain ⟨-, -, rfl⟩ := mergeWithin_eq_ok_iff.1 h
  exact a.isEmpty_joinedText b

end Union

end SpeechTranscript.Segment
