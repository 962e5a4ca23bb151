import SpeechTranscript.Proofs.Session.Consistency
import SpeechTranscript.Proofs.Session.History
import SpeechTranscript.Proofs.Session.Order
import SpeechTranscript.Proofs.Session.Separation
import SpeechTranscript.Proofs.Timeline.Blocks
import SpeechTranscript.Proofs.Timeline.Text

/-!
# What a merge keeps

When a session merges its segments, and their numbers go with their starts, nothing of what they say
is lost: the text stays, the covered span stays, and each segment is made of a block of former ones.

* `kept_mergeAdjacent`: a merge in a session after any run.
-/

namespace SpeechTranscript.Session

section Merging

variable {s next : Session} {gap : Float}

/-- What a session tells after a merge is what it told before. -/
structure Kept (gap : Float) (s next : Session) : Prop where
  joinedTexts_eq : next.segments.joinedTexts = s.segments.joinedTexts
  fullText_eq : next.fullText = s.fullText
  span?_eq : next.segments.span? = s.segments.span?
  /-- Each segment is folded from a block of the segments before, one block after the other. -/
  exists_blocks : ∃ blocks : List (Segment × List Segment),
    (blocks.flatMap fun block => block.1 :: block.2) = s.segments ∧
      List.Forall₂ (fun block segment => Timeline.Folded gap block.1 block.2 segment) blocks
        next.segments

/-- Timelines that cover the same span with the same texts have the same formatted text. -/
theorem fullText_eq_of_span?_eq {t t' : Timeline} (hspan : t.span? = t'.span?)
    (h : t.joinedTexts = t'.joinedTexts) : t.fullText = t'.fullText := by
  cases t with
  | nil =>
    cases t' with
    | nil => rfl
    | cons first rest => contradiction
  | cons first rest =>
    cases t' with
    | nil => contradiction
    | cons first' rest' =>
      exact Timeline.fullText_congr (List.cons_ne_nil _ _) (List.cons_ne_nil _ _) h

/-- A merge in a session after a run keeps what the segments tell, if their numbers do not fall and
their texts have no blanks around them. -/
theorem kept_mergeAdjacent {id audioId : String} {language : Language} {parameters : Parameters}
    {steps : List (Instant × Command)}
    (hs : s = ((new id audioId language).withParameters parameters).run steps)
    (hsequence : s.segments.Pairwise (·.sequence ≤ ·.sequence))
    (htidy : ∀ segment ∈ s.segments, segment.Tidy) (h : mergeAdjacent gap s = .ok () next) :
    Kept gap s next := by
  have heffect : Effect ⟨0⟩ s (.merge gap) next := effect_of_perform h
  have hordered : s.segments.Ordered := hs ▸ ordered_run Timeline.ordered_nil steps
  obtain ⟨reason, hconsistent⟩ := (Consistent.new id audioId language parameters).exists_run steps
  rw [← hs] at hconsistent
  obtain ⟨hmerge, -⟩ := heffect.merged
  -- the groups are pieces of the list, so the numbers do not fall in them either
  have hgroups : ∀ group ∈ Timeline.groups gap s.segments, Timeline.InSequence group := by
    rw [← Timeline.flatten_groups gap s.segments] at hsequence
    exact fun group hgroup =>
      Timeline.inSequence_of_pairwise ((List.pairwise_flatten.1 hsequence).1 group hgroup)
  have hjoined := Timeline.joinedTexts_mergeAdjacent hmerge htidy hgroups
  have hspan := Timeline.span?_mergeAdjacent hmerge hordered
  refine ⟨hjoined, ?_, hspan, Timeline.exists_blocks hmerge hordered hsequence⟩
  rw [(hconsistent.effect heffect).fullText_eq, hconsistent.fullText_eq]
  exact fullText_eq_of_span?_eq hspan hjoined

/-- What a step does that is not refused. -/
theorem perform_of_carriesOut (step : Instant × Command) (h : s.carriesOut step = true) :
    perform step.1 step.2 s = .ok () (s.after step) := by
  rcases after_cases s step with ⟨hok, -⟩ | ⟨⟨refusal, hrefused⟩, -⟩
  · exact hok
  · rw [carriesOut, hrefused] at h
    contradiction

/-- Words with a pause between that is a segment of its own, and another word much later. -/
def halting : List (Instant × Command) :=
  [(⟨0⟩, .start none ""), (⟨0⟩, .add (spoken 1.05 2 "end" 1 (by decide +kernel))),
    (⟨0⟩, .add (spoken 0 1 "the" 0 (by decide +kernel))),
    (⟨0⟩, .add (spoken 1 1.05 "" 1 (by decide +kernel))),
    (⟨0⟩, .add (spoken 7 8 "so" 4 (by decide +kernel)))]

theorem kept_halting :
    ∃ next, mergeAdjacent 100 (((new "s" "audio" .auto).withParameters .empty).run halting) =
        .ok () next ∧ next.segments.map (·.text.content) = ["the end", "so"] ∧
      Kept 100 (((new "s" "audio" .auto).withParameters .empty).run halting) next := by
  have hmerge := perform_of_carriesOut
    (s := ((new "s" "audio" .auto).withParameters .empty).run halting) (⟨0⟩, .merge 100)
    (by decide +kernel)
  exact ⟨_, hmerge, by decide +kernel,
    kept_mergeAdjacent rfl (by decide +kernel) (by decide +kernel) hmerge⟩

end Merging

end SpeechTranscript.Session
