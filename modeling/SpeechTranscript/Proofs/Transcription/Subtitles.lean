import SpeechTranscript.Export.Basic
import SpeechTranscript.Proofs.Subtitle.Framing
import SpeechTranscript.Proofs.Transcription.Feeding
import SpeechTranscript.Proofs.Transcription.Merging

/-!
# Transcriptions as subtitles

What a recognizer says goes into a subtitle file trimmed, perhaps joined with what comes after it,
and otherwise as it is. So the file of a completed transcription falls into one block for each cue
unless some utterance that has made it into the session has a blank line in it.

* `Timeline.unbroken_mergeAdjacent_iff`: merging segments.
* `framed_execute`: the SubRip file of a transcription.
* `not_framed_paragraphs`: an utterance of two paragraphs breaks it.
-/

namespace SpeechTranscript

namespace Timeline

section Merge

variable (rule : BlankRule) {gap : Float} {group timeline merged : Timeline} {segment : Segment}

/-- The segment of a group has a blank line in its text exactly when one of the group has. -/
theorem Merged.unbroken_iff (h : Merged gap group segment) (htidy : ∀ s ∈ group, s.Tidy) :
    segment.Tidy ∧ (rule.Unbroken segment.text.chars ↔
      ∀ s ∈ group, rule.Unbroken s.text.chars) := by
  induction h with
  | single segment => exact ⟨htidy segment (List.mem_singleton_self _), by simp⟩
  | @more group current next merged front last ih =>
    rw [List.forall_mem_append, List.forall_mem_singleton] at htidy
    obtain ⟨hcurrent, hiff⟩ := ih htidy.1
    have hnext : next.Tidy := htidy.2
    obtain ⟨-, -, hcontent, -⟩ := Segment.mergeWithin_eq_ok last
    have hmerged : merged.Tidy := by
      rw [Segment.Tidy, Text.chars, hcontent]
      exact Text.trimmed_toList _
    refine ⟨hmerged, ?_⟩
    rw [List.forall_mem_append, List.forall_mem_singleton, ← hiff, Text.chars, hcontent,
      Segment.joinTexts, Segment.inOrder]
    -- whichever of the two leads
    split
    · rw [Text.trimmed_append_space hcurrent hnext]
      exact rule.unbroken_spaced_iff hcurrent hnext
    · rw [Text.trimmed_append_space hnext hcurrent, rule.unbroken_spaced_iff hnext hcurrent]
      exact and_comm

/-- Merging keeps texts trimmed, and blank lines in them where they are. -/
theorem unbroken_mergeAdjacent_iff (hmerge : timeline.mergeAdjacent gap = .ok merged)
    (htidy : ∀ s ∈ timeline, s.Tidy) :
    (∀ s ∈ merged, s.Tidy) ∧ ((∀ s ∈ merged, rule.Unbroken s.text.chars) ↔
      ∀ s ∈ timeline, rule.Unbroken s.text.chars) := by
  have hgroups := mergeAdjacent_forall₂ hmerge
  rw [← flatten_groups gap timeline, List.forall_mem_flatten] at htidy
  constructor
  · refine (forall_mem_iff_of_forall₂ (p := fun _ => True) hgroups htidy ?_).1 fun _ _ => trivial
    exact fun hmerged hgroup => (iff_of_true (hmerged.unbroken_iff rule hgroup).1 trivial).symm
  · have hiff := forall_mem_iff_of_forall₂ hgroups htidy
      fun hmerged hgroup => (hmerged.unbroken_iff rule hgroup).2.symm
    rw [← hiff, ← List.forall_mem_flatten, flatten_groups]

end Merge

end Timeline

namespace Transcription

open Session

section Framed

variable {s : Session} {options : Options} {utterances : List Utterance} {listener : Listener}
  {started finished : Instant}

/-- The texts of the segments are those of their utterances, trimmed. -/
theorem Taken.unbroken_iff (rule : BlankRule) {number : ℕ} {taken : List (Utterance × ℕ)}
    {added : List Segment} (h : Taken number utterances taken added) :
    (∀ segment ∈ added, segment.Tidy) ∧ ((∀ segment ∈ added, rule.Unbroken segment.text.chars) ↔
      ∀ entry ∈ taken, rule.Unbroken (Text.trim entry.1.text.toList)) := by
  obtain ⟨-, hsegments⟩ := h
  induction hsegments with
  | nil => exact ⟨nofun, iff_of_true nofun nofun⟩
  | @cons entry segment taken added hfit hrest ih =>
    have htext : segment.text.chars = Text.trim entry.1.text.toList := by
      rw [Text.chars, (Utterance.toSegment_eq_ok hfit).2, Text.trimmed, String.toList_ofList]
    refine ⟨List.forall_mem_cons.2 ⟨tidy_of_toSegment hfit, ih.1⟩, ?_⟩
    rw [List.forall_mem_cons, List.forall_mem_cons, ih.2, htext]

/-- The blocks of the SubRip file of a completed transcription are its cues exactly when no
utterance that has made it into the session has a blank line between its first words and its
last. -/
theorem framed_execute (rule : BlankRule) (hs : s.status = .pending)
    (h : (execute options (.ok utterances) listener started finished s).result = .ok .completed)
    (encoder : Option Encoder) :
    let done := (execute options (.ok utterances) listener started finished s).course.session
    ∃ file, done.exportAs .srt encoder = .ok file ∧
      (∃ taken added timeline, Taken 0 utterances taken added ∧ timeline.Perm added ∧
        (done.segments = timeline ∨ options.mergeAdjacent = true ∧
          timeline.mergeAdjacent options.mergeGap = .ok done.segments) ∧
        (rule.Framed file done.segments ↔
          ∀ entry ∈ taken, rule.Unbroken (Text.trim entry.1.text.toList))) ∧
      ((∀ utterance ∈ utterances, rule.Unbroken (Text.trim utterance.text.toList)) →
        rule.Framed file done.segments) := by
  intro done
  have hstatus : done.status = .completed := (status_of_execute h).1
  obtain ⟨taken, added, timeline, htaken, hperm, hsegments⟩ :=
    exists_taken_of_execute hs options utterances listener started finished
  obtain ⟨htidy, htexts⟩ := htaken.unbroken_iff rule
  simp only [← hperm.mem_iff] at htidy htexts
  -- merged or not, the segments have blank lines where the utterances have
  have hdone : (∀ segment ∈ done.segments, segment.Tidy) ∧
      ((∀ segment ∈ done.segments, rule.Unbroken segment.text.chars) ↔
        ∀ entry ∈ taken, rule.Unbroken (Text.trim entry.1.text.toList)) := by
    rcases hsegments with hsame | ⟨-, hmerged⟩
    · rw [show done.segments = timeline from hsame]
      exact ⟨htidy, htexts⟩
    · obtain ⟨htidy', hiff⟩ := Timeline.unbroken_mergeAdjacent_iff rule hmerged htidy
      exact ⟨htidy', hiff.trans htexts⟩
  have hframed := (rule.framed_iff hdone.1).trans hdone.2
  refine ⟨SubtitleFormat.srt.write done.segments, ?_,
    ⟨taken, added, timeline, htaken, hperm, hsegments, hframed⟩, fun hall => hframed.2 ?_⟩
  · rw [exportAs, if_pos hstatus]
  · intro entry hentry
    exact hall _ (List.fst_mem_of_mem_zipIdx (htaken.sublist.subset hentry))

/-- Two lines that follow each other, and words without line breaks. -/
def verse : List Utterance := [utterance 0 1 " one\ntwo " none, utterance 1.5 2 "three" none]

theorem framed_verse :
    ∃ file, (transcribed .standard verse ⟨0⟩ ⟨1⟩ (.new "a" "audio" .auto)).exportAs .srt none =
        .ok file ∧
      BlankRule.blanks.Framed file
        (transcribed .standard verse ⟨0⟩ ⟨1⟩ (.new "a" "audio" .auto)).segments := by
  have hdone : (execute .standard (.ok verse) (fun _ => true) ⟨0⟩ ⟨1⟩
      (.new "a" "audio" .auto)).result = .ok .completed := by decide +kernel
  have hframed := framed_execute .blanks (by rfl) hdone none
  obtain ⟨file, hfile, -, hall⟩ := hframed
  exact ⟨file, hfile, hall (by decide)⟩

/-- Two paragraphs in one. -/
def paragraphs : List Utterance := [utterance 0 1 "a\n\nb" none]

theorem not_framed_paragraphs :
    (transcribed .standard paragraphs ⟨0⟩ ⟨1⟩ (.new "a" "audio" .auto)).exportAs .srt none =
        .ok "1\n00:00:00,000 --> 00:00:01,000\na\n\nb\n" ∧
      ¬ BlankRule.empty.Framed "1\n00:00:00,000 --> 00:00:01,000\na\n\nb\n"
        (transcribed .standard paragraphs ⟨0⟩ ⟨1⟩ (.new "a" "audio" .auto)).segments := by
  refine ⟨by decide +kernel, fun hframed => ?_⟩
  -- there are two blocks for one segment
  have hlength := hframed.length_eq
  revert hlength
  decide +kernel

end Framed

end Transcription

end SpeechTranscript
