import SpeechTranscript.Proofs.Session.Merging
import SpeechTranscript.Proofs.Timeline.Uniting

/-!
# What a merge leaves

A merge that is carried out leaves segments too far apart for it to find anything when it is done
again. If each two neighbours were adjacent before it, one segment is left, unless one lies too deep
inside a longer one that started earlier: there the merge stops to unite, though that segment is
adjacent to its neighbour.

* `mergeAdjacent_again`: the same merge a second time.
* `united_iff`: when one segment is left.
* `not_united_murmurs`: a session in which two are.
* `united_run`: sessions in which one is.
-/

namespace SpeechTranscript.Session

section MergeLaws

variable {s next : Session} {gap : Float} {id audioId : String} {language : Language}
  {parameters : Parameters} {steps : List (Instant × Command)}

/-! ## Merging again -/

/-- A merge finds nothing to do if all neighbours are apart. It still counts as a change. -/
theorem mergeAdjacent_of_apart (hprocessing : s.status = .processing)
    (hconfidence : s.confidence = s.segments.confidence) (h : Timeline.Apart gap s.segments) :
    mergeAdjacent gap s =
      .ok () { s with version := s.version + if s.segments.length < 2 then 0 else 1 } := by
  rw [mergeAdjacent_of_processing hprocessing, h.mergeAdjacent_eq]
  split
  · rfl
  · show EStateM.Result.ok () { s.withSegments s.segments with version := s.version + 1 } = _
    rw [withSegments_self hconfidence]

/-- After a merge in a session after any run, the same merge changes nothing but the version. -/
theorem mergeAdjacent_again
    (hs : s = ((new id audioId language).withParameters parameters).run steps)
    (h : mergeAdjacent gap s = .ok () next) :
    mergeAdjacent gap next =
      .ok () { next with version := next.version + if next.segments.length < 2 then 0 else 1 } := by
  have heffect : Effect ⟨0⟩ s (.merge gap) next := effect_of_perform h
  obtain ⟨reason, hconsistent⟩ := (Consistent.new id audioId language parameters).exists_run steps
  rw [← hs] at hconsistent
  have hordered : s.segments.Ordered := hs ▸ ordered_run Timeline.ordered_nil steps
  obtain ⟨hmerge, hprocessing⟩ := heffect.merged
  exact mergeAdjacent_of_apart hprocessing (hconsistent.effect heffect).confidence_eq
    (Timeline.apart_mergeAdjacent hordered hmerge)

/-- Two words close to each other, the second one long, after a pause. -/
def pausing : List (Instant × Command) :=
  [(⟨0⟩, .start none ""), (⟨0⟩, .add (spoken 0 1 "so" 0 (by decide +kernel))),
    (⟨0⟩, .add (spoken 1.2 1.5 "it" 1 (by decide +kernel))),
    (⟨0⟩, .add (spoken 1.55 9 "goes" 2 (by decide +kernel)))]

theorem mergeAdjacent_again_pausing :
    ∃ next, mergeAdjacent 100 (((new "s" "audio" .auto).withParameters .empty).run pausing) =
        .ok () next ∧ next.segments.map (·.text.content) = ["so", "it goes"] ∧
      mergeAdjacent 100 next = .ok () { next with
        version := next.version + if next.segments.length < 2 then 0 else 1 } := by
  have hmerge := perform_of_carriesOut
    (s := ((new "s" "audio" .auto).withParameters .empty).run pausing) (⟨0⟩, .merge 100)
    (by decide +kernel)
  exact ⟨_, hmerge, by decide +kernel, mergeAdjacent_again rfl hmerge⟩

/-! ## Uniting everything -/

/-- If each two neighbours in a session after any run are adjacent, a merge leaves one segment, from
the first start to the latest end, exactly when all segments are in reach. -/
theorem united_iff (hs : s = ((new id audioId language).withParameters parameters).run steps)
    (hsome : s.segments ≠ [])
    (hadjacent : s.segments.IsChain fun a b => a.isAdjacent b gap = true)
    (h : mergeAdjacent gap s = .ok () next) :
    (∃ segment, next.segments = [segment] ∧ Timeline.Spans s.segments segment) ↔
      Timeline.InReach gap s.segments := by
  have heffect : Effect ⟨0⟩ s (.merge gap) next := effect_of_perform h
  have hordered : s.segments.Ordered := hs ▸ ordered_run Timeline.ordered_nil steps
  exact Timeline.exists_spans_iff hsome hordered hadjacent heffect.merged.1

/-- Two stretches of speech with a pause between that is a segment of its own, heard just before the
first one ends. -/
def breathing : List (Instant × Command) :=
  [(⟨0⟩, .start none ""), (⟨0⟩, .add (spoken 0 10 "well" 0 (by decide +kernel))),
    (⟨0⟩, .add (spoken 9.9 9.95 "" 1 (by decide +kernel))),
    (⟨0⟩, .add (spoken 10 11 "then" 2 (by decide +kernel)))]

theorem united_breathing :
    ∃ next, mergeAdjacent 100 (((new "s" "audio" .auto).withParameters .empty).run breathing) =
        .ok () next ∧
      (((new "s" "audio" .auto).withParameters .empty).run breathing).segments.length = 3 ∧
      ∃ segment, next.segments = [segment] ∧ Timeline.Spans
        (((new "s" "audio" .auto).withParameters .empty).run breathing).segments segment := by
  have hmerge := perform_of_carriesOut
    (s := ((new "s" "audio" .auto).withParameters .empty).run breathing) (⟨0⟩, .merge 100)
    (by decide +kernel)
  exact ⟨_, hmerge, by decide +kernel,
    (united_iff rfl (by decide +kernel) (by decide +kernel) hmerge).2 (by decide +kernel)⟩

/-- Someone talks for ten seconds and is twice agreed with while talking. -/
def murmurs : List (Instant × Command) :=
  [(⟨0⟩, .start none ""), (⟨0⟩, .add (spoken 0 10 "listen" 0 (by decide +kernel))),
    (⟨0⟩, .add (spoken 0.5 0.6 "yes" 1 (by decide +kernel))),
    (⟨0⟩, .add (spoken 1.2 1.3 "right" 2 (by decide +kernel)))]

/-- Each two neighbours are within a second of each other, and still two segments are left. -/
theorem not_united_murmurs :
    (((new "s" "audio" .auto).withParameters .empty).run murmurs).segments.IsChain
        (fun a b => a.isAdjacent b 1000 = true) ∧
      ∃ next, mergeAdjacent 1000 (((new "s" "audio" .auto).withParameters .empty).run murmurs) =
        .ok () next ∧ ¬ ∃ segment, next.segments = [segment] := by
  have hmerge := perform_of_carriesOut
    (s := ((new "s" "audio" .auto).withParameters .empty).run murmurs) (⟨0⟩, .merge 1000)
    (by decide +kernel)
  refine ⟨by decide +kernel, _, hmerge, ?_⟩
  rw [← List.length_eq_one_iff]
  decide +kernel

/-- In a session that was never merged and whose segments also end in order, a gap of at least a
tenth of a second that covers the distances of all neighbours unites everything. -/
theorem united_run (hs : s = ((new id audioId language).withParameters parameters).run steps)
    (hmerges : ∀ step ∈ steps, ∀ gap, step.2 ≠ .merge gap) (hsome : s.segments ≠ [])
    (hends : s.segments.Pairwise (·.stop ≤ ·.stop)) (hgap : 100 ≤ gap)
    (hadjacent : s.segments.IsChain fun a b => a.isAdjacent b gap = true)
    (h : mergeAdjacent gap s = .ok () next) :
    ∃ segment, next.segments = [segment] ∧ Timeline.Spans s.segments segment := by
  have heffect : Effect ⟨0⟩ s (.merge gap) next := effect_of_perform h
  have hordered : s.segments.Ordered := hs ▸ ordered_run Timeline.ordered_nil steps
  have hseparated : s.segments.Separated :=
    hs ▸ separated_run_of_no_merge Timeline.ordered_nil Timeline.separated_nil hmerges
  exact (Timeline.exists_spans_iff hsome hordered hadjacent heffect.merged.1).2
    (hseparated.inReach hordered hends hgap)

end MergeLaws

end SpeechTranscript.Session
