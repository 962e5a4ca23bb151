import SpeechTranscript.Proofs.Session.Order
import SpeechTranscript.Proofs.Timeline.Separation

/-!
# How far the segments of a session keep apart

Every operation but one keeps the segments of a session from sharing more time than they may. The
one is merging, and it does so exactly when the groups it unites are clear of each other.

* `Effect.separated`: what one step preserves.
* `separated_run_of_no_merge`: without merges the segments keep apart.
* `separated_run_iff`: with merges they do exactly when every merge is clear.
* `not_separated_stretchedRun`: a run in which one is not.
-/

namespace SpeechTranscript.Session

section Separation

variable {s next : Session} {now : Instant} {command : Command}

/-- Every effect keeps segments apart; a merge does if its groups are clear of each other. -/
theorem Effect.separated (h : Effect now s command next) (hordered : s.segments.Ordered)
    (hs : s.segments.Separated)
    (hclear : ∀ {gap}, command = .merge gap → Timeline.Clear gap s.segments) :
    next.segments.Separated := by
  refine h.segments_invariant hs Timeline.separated_nil Timeline.Separated.accept ?_
  intro gap segments hmerge hsegments
  exact (Timeline.separated_mergeAdjacent_iff hordered hsegments).2 (hclear hmerge)

/-- A run by steps: what is left after some steps comes from what was left one step before. -/
theorem run_take_succ {steps : List (Instant × Command)} {k : ℕ} {step : Instant × Command}
    (h : steps[k]? = some step) :
    s.run (steps.take (k + 1)) = (s.run (steps.take k)).after step := by
  rw [List.take_add_one, h, run_append]
  rfl

/-- Every merge that is carried out in a run finds its groups clear of each other. -/
def ClearMerges (s : Session) (steps : List (Instant × Command)) : Prop :=
  ∀ k now gap, steps[k]? = some (now, .merge gap) → ∀ next,
    mergeAdjacent gap (s.run (steps.take k)) = .ok () next →
    Timeline.Clear gap (s.run (steps.take k)).segments

/-- Segments keep apart through a run of clear merges. -/
theorem separated_run (hordered : s.segments.Ordered) (hs : s.segments.Separated)
    {steps : List (Instant × Command)} (h : ClearMerges s steps) (k : ℕ) :
    (s.run (steps.take k)).segments.Separated := by
  induction k with
  | zero => exact hs
  | succ k ih =>
    cases hstep : steps[k]? with
    | none =>
      -- the run is over already
      rw [List.take_add_one, hstep, Option.toList_none, List.append_nil]
      exact ih
    | some step =>
      rw [run_take_succ hstep]
      rcases after_cases (s.run (steps.take k)) step with ⟨hok, heffect⟩ | ⟨-, hsame⟩
      · refine heffect.separated (ordered_run hordered _) ih fun {gap} hcommand => ?_
        rw [hcommand] at hok
        exact h k step.1 gap (by rw [hstep, ← hcommand]) _ hok
      · rw [hsame]
        exact ih

/-- Without merges segments keep apart. -/
theorem separated_run_of_no_merge (hordered : s.segments.Ordered) (hs : s.segments.Separated)
    {steps : List (Instant × Command)} (h : ∀ step ∈ steps, ∀ gap, step.2 ≠ .merge gap) :
    (s.run steps).segments.Separated := by
  have hclear : ClearMerges s steps := fun k now gap hstep =>
    absurd rfl (h _ (List.mem_of_getElem? hstep) gap)
  have hall := separated_run hordered hs hclear steps.length
  rwa [List.take_length] at hall

/-- The segments of a new session keep apart through a run exactly when every merge in it is
clear. -/
theorem separated_run_iff (id audioId : String) (language : Language) (parameters : Parameters)
    (steps : List (Instant × Command)) :
    (∀ k, (((new id audioId language).withParameters parameters).run
        (steps.take k)).segments.Separated) ↔
      ClearMerges ((new id audioId language).withParameters parameters) steps := by
  have hordered := Timeline.ordered_nil
  constructor
  · intro h k now gap hstep next hmerge
    -- the timeline after the merge keeps apart, so the merge was clear
    have hnext := h (k + 1)
    rw [run_take_succ hstep, after, afterwards, perform, hmerge] at hnext
    have heffect : Effect now _ (.merge gap) next := effect_of_perform hmerge
    exact (Timeline.separated_mergeAdjacent_iff (ordered_run hordered _) heffect.merged.1).1 hnext
  · exact separated_run hordered Timeline.separated_nil

/-- A segment with a text, for a run to add. -/
def spoken (start stop : Float) (text : String) (sequence : UInt32)
    (h : (Segment.simple start stop text sequence).toOption.isSome = true) : Segment :=
  (Segment.simple start stop text sequence).toOption.get h

/-- A long segment, a short one inside it and one after both. A merge unites the last two, and what
they become reaches back into the first. -/
def stretchedRun : List (Instant × Command) :=
  [(⟨0⟩, .start none ""), (⟨0⟩, .add (spoken 0 10 "a" 0 (by decide +kernel))),
    (⟨0⟩, .add (spoken 9.3 9.4 "b" 1 (by decide +kernel))),
    (⟨0⟩, .add (spoken 9.9 20 "c" 2 (by decide +kernel))), (⟨0⟩, .merge 500)]

theorem not_separated_stretchedRun :
    ¬ ((new "s" "audio" .auto).run stretchedRun).segments.Separated := by
  decide +kernel

end Separation

end SpeechTranscript.Session
