import SpeechTranscript.Proofs.Timeline.Text
import SpeechTranscript.Proofs.Transcription.Course

/-!
# Merging and the final text

A transcription may merge its segments in the end. The text of two merged segments goes by their
numbers, the text of two that are not merged by their starts. So merging leaves the final text as it
is when the numbers that the recognizer gives do not contradict the starts, and may change it
otherwise.

* `finalText_transcribed_merging`: the final text, merged or not.
* `finalText_transcribed_swapped`: numbers against the starts change it.
-/

namespace SpeechTranscript.Transcription

/-! ## What is collected -/

section Collect

variable {options options' : Options}

/-- The text of a segment made from an utterance has no blanks around it. -/
theorem tidy_of_toSegment {utterance : Utterance} {fallback : UInt32} {segment : Segment}
    (h : utterance.toSegment fallback = .ok segment) : segment.Tidy := by
  obtain ⟨start, -, h⟩ := bind_eq_ok_iff.1 h
  obtain ⟨stop, -, h⟩ := bind_eq_ok_iff.1 h
  obtain ⟨text, htext, h⟩ := bind_eq_ok_iff.1 h
  obtain ⟨confidence, -, h⟩ := bind_eq_ok_iff.1 h
  obtain ⟨built, hbuild, h⟩ := bind_eq_ok_iff.1 h
  cases h
  -- speaker and language are set afterwards and leave the text alone
  obtain ⟨-, -, hbuilt, -⟩ := Segment.build_eq_ok hbuild
  have hcontent := Segment.content_of_finalized (orRefuse_eq_ok_iff.1 htext)
  show Text.Trimmed built.text.chars
  rw [hbuilt, Text.chars, hcontent]
  exact Text.trimmed_toList _

theorem tidy_of_collect {utterances : List Utterance} {number : ℕ} {timeline segments : Timeline}
    (ht : ∀ s ∈ timeline, s.Tidy) (h : collect options number timeline utterances = .ok segments) :
    ∀ s ∈ segments, s.Tidy := by
  induction utterances generalizing number timeline with
  | nil =>
    cases h
    exact ht
  | cons utterance rest ih =>
    obtain ⟨segment, hsegment, h⟩ := bind_eq_ok_iff.1 h
    cases haccept : timeline.accept segment with
    | ok next =>
      rw [haccept] at h
      obtain ⟨-, rfl⟩ := Timeline.accept_eq_ok_iff.1 haccept
      refine ih ?_ h
      intro s hs
      rcases Timeline.mem_place.1 hs with rfl | hs
      · exact tidy_of_toSegment hsegment
      · exact ht s hs
    | error refusal =>
      rw [haccept] at h
      dsimp only at h
      split at h
      · exact ih ht h
      · contradiction

/-- Of the options only one has a part in what is collected. -/
theorem collect_congr (h : options.skipOverlapping = options'.skipOverlapping) (number : ℕ)
    (timeline : Timeline) (utterances : List Utterance) :
    collect options number timeline utterances = collect options' number timeline utterances := by
  have hskips : skips options = skips options' := by
    funext refusal
    cases refusal <;> first | exact h | rfl
  induction utterances generalizing number timeline with
  | nil => rfl
  | cons utterance rest ih => simp only [collect, ih, hskips]

end Collect

/-! ## With and without merging -/

/-- The options with merging chosen or not. -/
def merging (options : Options) (mergeAdjacent : Bool) : Options := { options with mergeAdjacent }

/-- The session that a transcription without a listener leaves behind. -/
def transcribed (options : Options) (utterances : List Utterance) (started finished : Instant)
    (s : Session) : Session :=
  (execute options (.ok utterances) (fun _ => true) started finished s).course.session

section Merging

variable {s s' : Session} {started finished started' finished' : Instant} {options : Options}
  {utterances : List Utterance}

/-- Two transcriptions of the same utterances without a listener, one that merges and one that does
not, complete with the same final text, if in every group that is merged the numbers put no later
text before an earlier one. -/
theorem finalText_transcribed_merging (hs : s.status = .pending) (hs' : s'.status = .pending)
    (hplain : (transcribed (merging options false) utterances started finished s).status =
      .completed)
    (hmerged : (transcribed (merging options true) utterances started' finished' s').status =
      .completed)
    (hsequence : ∀ group ∈ Timeline.groups options.mergeGap
      (transcribed (merging options false) utterances started finished s).segments,
      Timeline.InSequence group) :
    (transcribed (merging options true) utterances started' finished' s').finalText =
      (transcribed (merging options false) utterances started finished s).finalText := by
  obtain ⟨segments, hcollect, hdone⟩ := completed_of_execute (fun _ => rfl) hs hplain
  obtain ⟨segments', hcollect', hdone'⟩ := completed_of_execute (fun _ => rfl) hs' hmerged
  change CompletedWith _ _ (transcribed _ _ _ _ _) at hdone hdone'
  generalize transcribed (merging options false) utterances started finished s = plain at *
  generalize transcribed (merging options true) utterances started' finished' s' = merged at *
  -- both have collected the same segments
  have hsame : collect (merging options true) 0 [] utterances =
      collect (merging options false) 0 [] utterances :=
    collect_congr (by rfl) 0 [] utterances
  rw [hcollect, hcollect'] at hsame
  cases hsame
  have hsegments : plain.segments = segments := hdone.segments_eq
  have hmerge : segments.mergeAdjacent options.mergeGap = .ok merged.segments := hdone'.segments_eq
  rw [hsegments] at hsequence
  have hjoined := Timeline.joinedTexts_mergeAdjacent hmerge
    (tidy_of_collect (List.forall_mem_nil _) hcollect') hsequence
  have hne : segments ≠ [] := hsegments ▸ hdone.segments_ne_nil
  obtain ⟨text, htext, hfinal⟩ := hdone.exists_text
  obtain ⟨text', htext', hfinal'⟩ := hdone'.exists_text
  rw [hsegments] at htext
  rw [Timeline.fullText_congr hdone'.segments_ne_nil hne hjoined, htext] at htext'
  rw [hfinal, hfinal', Except.ok.inj htext']

/-- An utterance as a recognizer reports it that says no more than it must. -/
def utterance (start stop : Float) (text : String) (sequence : Option UInt32) : Utterance where
  start
  stop
  text
  confidence := Utterance.assumedConfidence
  speaker := none
  language := none
  sequence

/-- Two words that follow each other, numbered one way or the other. -/
def greeting (first second : UInt32) : List Utterance :=
  [utterance 0 1 "hello" (some first), utterance 1 2 "world" (some second)]

/-- With numbers in the order of the starts the text stays. -/
theorem finalText_transcribed_greeting :
    (transcribed (merging .standard true) (greeting 0 1) ⟨0⟩ ⟨1⟩
        (.new "a" "audio" .auto)).finalText =
      (transcribed (merging .standard false) (greeting 0 1) ⟨0⟩ ⟨1⟩
        (.new "b" "audio" .auto)).finalText :=
  finalText_transcribed_merging rfl rfl (by decide +kernel) (by decide +kernel) (by decide +kernel)

/-- With numbers against the starts it does not. -/
theorem finalText_transcribed_swapped :
    (transcribed (merging .standard true) (greeting 2 1) ⟨0⟩ ⟨1⟩ (.new "a" "audio" .auto)).status =
        .completed ∧
      (transcribed (merging .standard false) (greeting 2 1) ⟨0⟩ ⟨1⟩
        (.new "b" "audio" .auto)).status = .completed ∧
      (transcribed (merging .standard true) (greeting 2 1) ⟨0⟩ ⟨1⟩
          (.new "a" "audio" .auto)).finalText ≠
        (transcribed (merging .standard false) (greeting 2 1) ⟨0⟩ ⟨1⟩
          (.new "b" "audio" .auto)).finalText := by
  decide +kernel

end Merging

end SpeechTranscript.Transcription
