import SpeechTranscript.Proofs.Session.Consistency
import SpeechTranscript.Proofs.Session.Segments

/-!
# The scores and times of a session

A segment may come with any score that operations on scores can give, and one of these is no number:
a mean whose weights are together too large for a double. Merging weights scores by lengths of time,
which are small, so it makes no other scores of this kind; but it does not mend one either. So the
scores in a session are proper exactly if those of all accepted segments are. The score over all
segments is proper in any case, and a time that is kept is the time of a step.

* `Timeline.proper_confidence`: the score over all segments, whatever theirs are.
* `scored_run_iff`: when the scores after a run are proper.
* `onCalendar_run`: the times after a run.
-/

namespace SpeechTranscript

/-! ## Times -/

namespace Instant

open Double

/-- An instant that the calendar has. -/
def OnCalendar (t : Instant) : Prop := earliest ≤ t.micros ∧ t.micros ≤ latest

instance (t : Instant) : Decidable t.OnCalendar := inferInstanceAs (Decidable (_ ∧ _))

/-- The seconds of an instant on the calendar are a number. -/
theorem OnCalendar.isFinite {t : Instant} (h : t.OnCalendar) : t.unixSeconds.isFinite = true := by
  obtain ⟨hlow, hhigh⟩ := h
  unfold earliest at hlow
  unfold latest at hhigh
  have hmicros : t.micros.natAbs ≤ 2 ^ 63 := by omega
  obtain ⟨hfinite, hvalue⟩ := value_ofInt
    (hmicros.trans (Nat.pow_le_pow_right two_pos (by norm_num : 63 ≤ 100)))
  have hunit : Decimal.Exact.ofFloat 1000000 = .finite false 8589934592000000 (-33) := by
    decide +kernel
  have hmillion : value (1000000 : Float) = 1000000 := by
    rw [(value_eq_of_exact hunit).2]
    norm_num
  -- a time on the calendar has 63 bits, so dividing it cannot be too large
  have hbound : |value (Float.ofInt t.micros)| ≤ 2 ^ 63 := by
    rw [hvalue]
    refine abs_rounded_le 63 ?_
    rw [← Int.cast_abs, Int.abs_eq_natAbs]
    exact_mod_cast hmicros
  refine (value_div hfinite (value_eq_of_exact hunit).1 (by rw [hmillion]; norm_num)
    (abs_rounded_lt ?_)).1
  rw [hmillion, abs_div]
  refine ((div_le_self (abs_nonneg _) (by norm_num)).trans hbound).trans ?_
  exact pow_le_pow_right₀ one_le_two (by norm_num)

end Instant

/-! ## Scores -/

namespace Timeline

/-- A timeline of segments with proper scores. -/
def Scored (timeline : Timeline) : Prop := ∀ segment ∈ timeline, segment.confidence.Proper

/-- The score over all segments is checked, so it is proper whatever theirs are. -/
theorem proper_confidence (timeline : Timeline) : timeline.confidence.Proper := by
  unfold confidence
  dsimp only
  split
  · generalize hchecked : Confidence.ofValue _ = checked
    cases checked with
    | ok c => exact (Confidence.ofValue_eq_ok_iff.1 hchecked).2
    | error fault => exact Confidence.proper_zero
  · exact Confidence.proper_zero

theorem scored_congr {timeline other : Timeline} (h : timeline.Perm other) :
    timeline.Scored ↔ other.Scored :=
  forall_congr' fun _ => imp_congr_left h.mem_iff

section Merge

variable {gap : Float} {group timeline merged : Timeline} {segment : Segment}

/-- The segment of a group has a proper score exactly if all segments of the group have. -/
theorem Merged.proper_iff (h : Merged gap group segment)
    (hgroup : ∀ s ∈ group, s.confidence.Possible) :
    segment.confidence.Proper ↔ group.Scored := by
  induction h with
  | single segment => rw [Scored, List.forall_mem_singleton]
  | @more group current next merged front last ih =>
    obtain ⟨hfront, hnext⟩ := List.forall_mem_append.1 hgroup
    rw [List.forall_mem_singleton] at hnext
    -- the score so far is possible, so the one step is decided by the two scores
    have hcurrent : current.confidence.Possible :=
      front.invariant (fun _ _ => Segment.possible_mergeWithin) hfront
    obtain ⟨-, -, rfl⟩ := Segment.mergeWithin_eq_ok_iff.1 last
    rw [Segment.proper_union_iff _ _ hcurrent hnext, ih hfront, Scored, Scored,
      List.forall_mem_append, List.forall_mem_singleton]

/-- Merging a timeline neither mends a score nor spoils one. -/
theorem scored_mergeAdjacent_iff (h : ∀ s ∈ timeline, s.confidence.Possible)
    (hmerge : timeline.mergeAdjacent gap = .ok merged) : merged.Scored ↔ timeline.Scored := by
  have hgroups := mergeAdjacent_forall₂ hmerge
  rw [← flatten_groups gap timeline, List.forall_mem_flatten] at h
  rw [Scored, ← forall_mem_iff_of_forall₂ hgroups h fun hmerged hpossible =>
    (hmerged.proper_iff hpossible).symm]
  conv_rhs => rw [Scored, ← flatten_groups gap timeline, List.forall_mem_flatten]
  rfl

end Merge

end Timeline

/-! ## Scores after a run -/

namespace Session

section Scores

variable {s next : Session} {now : Instant} {command : Command}

/-- The scores after an effect are proper if those before it were and those that it adds are. -/
theorem Effect.scored_iff (h : Effect now s command next)
    (hs : ∀ segment ∈ s.segments, segment.confidence.Possible)
    (hpending : s.status = .pending → s.segments = []) :
    next.segments.Scored ↔
      s.segments.Scored ∧ ∀ segment ∈ command.segments, segment.confidence.Proper := by
  cases h with
  | start pending =>
    rw [hpending pending]
    exact iff_of_true nofun ⟨nofun, nofun⟩
  | @add segment segments processing accepted =>
    obtain ⟨-, rfl⟩ := Timeline.accept_eq_ok_iff.1 accepted
    show (s.segments.place segment).Scored ↔ _
    rw [Timeline.scored_congr Timeline.place_perm, Timeline.Scored, List.forall_mem_cons,
      Command.segments, List.forall_mem_singleton]
    exact and_comm
  -- a batch is placed as it is given, whatever is reported of it
  | @addAll batch segments reports processing staged =>
    rw [foldl_record]
    obtain ⟨-, heq⟩ := stage_eq_ok_iff.1 staged
    obtain ⟨rfl, -⟩ := Prod.mk.inj heq
    show (s.segments.placed batch).Scored ↔ _
    rw [Timeline.scored_congr (Timeline.placed_perm s.segments batch), Timeline.Scored,
      List.forall_mem_append]
    exact and_comm
  | merge processing many merged =>
    exact (Timeline.scored_mergeAdjacent_iff hs merged).trans (and_iff_left nofun).symm
  | mergeFew | complete | failLate | fail | cancel | drain => exact (and_iff_left nofun).symm

/-- The scores after a run of a new session are proper exactly if those of all segments accepted in
it are. -/
theorem scored_run_iff (id audioId : String) (language : Language) (parameters : Parameters)
    (steps : List (Instant × Command)) :
    let s := (new id audioId language).withParameters parameters
    (∀ segment ∈ accepted s steps, segment.confidence.Possible) →
      ((s.run steps).segments.Scored ↔
        ∀ segment ∈ accepted s steps, segment.confidence.Proper) := by
  intro s hpossible
  have hfirst : ∀ segment ∈ s.segments, segment.confidence.Possible :=
    fun _ hmem => absurd hmem List.not_mem_nil
  -- on the run from its end: the last step starts where the run before it has led
  induction steps using List.reverseRecOn with
  | nil =>
    exact iff_of_true (fun _ hmem => absurd hmem List.not_mem_nil)
      (fun _ hmem => absurd hmem List.not_mem_nil)
  | append_singleton steps step ih =>
    have haccepted : accepted s (steps ++ [step]) =
        accepted s steps ++ acceptedIn (s.run steps) step :=
      noted_append_singleton acceptedIn s steps step
    rw [haccepted, List.forall_mem_append] at hpossible
    have hbefore : (s.run steps).segments.Scored ↔
        ∀ segment ∈ accepted s steps, segment.confidence.Proper := ih hpossible.1
    rw [haccepted, List.forall_mem_append, ← hbefore, run_append, run_cons, run_nil,
      acceptedIn, carriesOut]
    rcases after_cases (s.run steps) step with ⟨hok, heffect⟩ | ⟨⟨refusal, hrefused⟩, hsame⟩
    · obtain ⟨reason, hconsistent⟩ :=
        (Consistent.new id audioId language parameters).exists_run steps
      rw [hok, if_pos rfl]
      exact heffect.scored_iff
        (forall_segments_run (fun _ _ => Segment.possible_mergeWithin) hfirst hpossible.1)
        fun hpending => (hconsistent.pending hpending).1
    · rw [hsame, hrefused, if_neg Bool.false_ne_true]
      exact (and_iff_left fun _ hmem => absurd hmem List.not_mem_nil).symm

end Scores

/-! ## Times after a run -/

/-- A session with times that the calendar has. -/
structure OnCalendar (s : Session) : Prop where
  started : ∀ t ∈ s.started, t.OnCalendar
  finished : ∀ t ∈ s.finished, t.OnCalendar

section Times

variable {s next : Session} {now : Instant} {command : Command}

/-- A time that an effect puts down is the time of its step. -/
theorem Effect.onCalendar (h : Effect now s command next) (hs : OnCalendar s)
    (hnow : now.OnCalendar) : OnCalendar next := by
  refine ⟨?_, ?_⟩
  · cases h with
    | start =>
      intro t ht
      cases ht
      exact hnow
    | addAll =>
      rw [foldl_record]
      exact hs.started
    | _ => exact hs.started
  · cases h with
    | start => exact nofun
    | addAll =>
      rw [foldl_record]
      exact hs.finished
    -- fail | cancel => | these three set the time of the end, and starting clears it
    | complete | fail | cancel =>
      intro t ht
      cases ht
      exact hnow
    | _ => exact hs.finished

theorem onCalendar_new (id audioId : String) (language : Language) (parameters : Parameters) :
    OnCalendar ((new id audioId language).withParameters parameters) :=
  ⟨nofun, nofun⟩

/-- A command given at a time on the calendar leaves times on the calendar. -/
theorem OnCalendar.after (hs : OnCalendar s) (hnow : now.OnCalendar) (command : Command) :
    OnCalendar (s.after (now, command)) := by
  rcases after_cases s (now, command) with ⟨-, heffect⟩ | ⟨-, hsame⟩
  · exact heffect.onCalendar hs hnow
  · rw [hsame]
    exact hs

/-- Steps made at times that the calendar has leave no others in the session. -/
theorem onCalendar_run (hs : OnCalendar s) {steps : List (Instant × Command)}
    (h : ∀ step ∈ steps, step.1.OnCalendar) : OnCalendar (s.run steps) := by
  induction steps generalizing s with
  | nil => exact hs
  | cons step rest ih =>
    obtain ⟨hstep, hrest⟩ := List.forall_mem_cons.1 h
    exact ih (hs.after hstep step.2) hrest

end Times

end Session

end SpeechTranscript
