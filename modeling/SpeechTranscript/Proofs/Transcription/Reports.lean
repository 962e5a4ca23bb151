import SpeechTranscript.Proofs.Transcription.Feeding
import SpeechTranscript.Proofs.Transcription.Merging

/-!
# What a listener hears

A listener is told of each accepted segment once, when it is on the timeline, with the progress that
the event of it carries. So what it hears is the progress along the timeline, which does not go
back; and it can stop a transcription only with the last segment that is accepted.

* `Heard`: what a listener has heard in the end.
* `heard_execute`: what it hears in every transcription of a pending session.
-/

namespace SpeechTranscript.Transcription

open Session

/-- What a listener has heard in the end of a transcription of a session that has accepted segments,
in this order. -/
structure Heard (s : Session) (options : Options) (listener : Listener)
    (utterances : List Utterance) (added : List Segment) (o : Outcome) : Prop where
  /-- The segments are those that some of the utterances have become, -/
  taken : ∃ taken, Taken 0 utterances taken added
  /-- and that the session has accepted on its way. -/
  run : ∃ steps, o.course.session = s.run steps ∧ o.course.events.toList = recorded s steps ∧
    (accepted s steps).map (·.id) = added.map (·.id)
  /-- It has them in the end, merged if that is chosen. -/
  segments : o.course.session.segments = Timeline.placed [] added ∨
    options.mergeAdjacent = true ∧
      (Timeline.placed [] added).mergeAdjacent options.mergeGap = .ok o.course.session.segments
  /-- Each of them is reported with the progress of the timeline that has it, -/
  reports : o.course.reports.toList = Timeline.progressAlong options.recording [] added
  /-- and the events tell of the same segments and the same progress. -/
  events : o.course.events.toList.filterMap (·.what.processed?) =
    (added.map (·.id)).zip o.course.reports.toList
  proper : ∀ progress ∈ o.course.reports.toList, progress.Proper
  ordered : o.course.reports.toList.Pairwise (· ≤ ·)
  /-- A report that the listener does not let pass is the last one. -/
  stops : ∀ k < added.length, listener (o.course.reports.take (k + 1)) = false →
    k + 1 = added.length ∧ o.result = .ok .cancelled ∧ o.course.session.status = .cancelled

section Execute

/-- The events of a delivered transcription tell of the segments that the session has accepted. -/
theorem exists_accepted_of_delivered {s : Session} {c : Course} (h : Delivered s c)
    (hfirst : Chronicled s []) (hempty : s.outbox.pending = []) :
    ∃ steps, c.session = s.run steps ∧ c.events.toList = recorded s steps ∧
      (accepted s steps).map (·.id) = c.processed.map (·.1) := by
  obtain ⟨steps, hrun, hrecorded⟩ := h.recorded
  have hids := (chronicled_run hfirst steps).segments_eq
  rw [history, taken_append_pending, hempty, List.nil_append, ← hrecorded] at hids
  refine ⟨steps, hrun, hrecorded, ?_⟩
  rw [← hids, Course.processed, List.map_filterMap]
  congr
  funext event
  cases event.what <;> rfl

/-- What a listener hears in a transcription of a pending session. -/
theorem heard_execute (id audioId : String) (language : Language) (parameters : Parameters)
    (steps : List (Instant × Command)) (options : Options) (utterances : List Utterance)
    (listener : Listener) (started finished : Instant)
    (hs : (((new id audioId language).withParameters parameters).run steps).status = .pending) :
    ∃ added, Heard (((new id audioId language).withParameters parameters).run steps) options
      listener utterances added (execute options (.ok utterances) listener started finished
        (((new id audioId language).withParameters parameters).run steps)) := by
  obtain ⟨reason, hconsistent⟩ := (Consistent.new id audioId language parameters).exists_run steps
  obtain ⟨hfirst, hempty⟩ := chronicled_of_pending hconsistent hs
  generalize ((new id audioId language).withParameters parameters).run steps = s
    at hs hfirst hempty ⊢
  obtain ⟨hdelivered, -⟩ :=
    concluded_execute hs hfirst hempty options (.ok utterances) listener started finished
  obtain ⟨fed, result, hfed, hleaves, hcancelled⟩ :=
    exists_fed_of_execute hs options utterances listener started finished
  generalize execute options (.ok utterances) listener started finished s = o
    at hdelivered hleaves hcancelled ⊢
  obtain ⟨taken, added, htaken, hgrows⟩ := hfed.exists_taken
  -- nothing has been added or told of when the feeding begins
  obtain ⟨hsegments, hreports, hprocessed, hstops⟩ := hgrows
  simp only [segments_opened, recording_opened, reports_opened options listener started hempty,
    processed_opened options listener started hempty, List.nil_append]
    at hsegments hreports hprocessed hstops
  -- and nothing of this is changed by what comes after it
  rw [← hleaves.reports] at hreports hstops
  rw [← hleaves.processed, ← hreports] at hprocessed
  have hcount : o.course.reports.toList.length = added.length := by
    rw [hreports]
    exact Timeline.length_progressAlong _ _ _
  have hnames : o.course.processed.map (·.1) = added.map (·.id) := by
    rw [hprocessed]
    exact List.map_fst_zip (by rw [List.length_map, hcount])
  refine ⟨added, ⟨taken, htaken⟩, ?_, hsegments ▸ hleaves.segments, hreports, hprocessed, ?_, ?_, ?_⟩
  · rw [← hnames]
    exact exists_accepted_of_delivered hdelivered hfirst hempty
  · rw [hreports]
    exact fun progress hmem => Timeline.proper_of_mem_progressAlong _ _ _ hmem
  · rw [hreports]
    exact Timeline.pairwise_progressAlong _ _ _
  · intro k hk hstop
    rw [Array.length_toList] at hcount
    obtain ⟨hlast, hresult⟩ := hstops k (Nat.zero_le k) (hcount ▸ hk) hstop
    exact ⟨hlast.trans hcount, hcancelled hresult⟩

/-- The second utterance lies before the first, and there is a third. -/
def outOfOrder : List Utterance :=
  [utterance 4 5.5 "two" none, utterance 0 1 "one" none, utterance 8 9 "three" none]

/-- Lets one report pass and stops the transcription with the second. -/
def impatient : Listener := fun reports => reports.size < 2

theorem heard_outOfOrder :
    let o := execute .standard (.ok outOfOrder) impatient ⟨0⟩ ⟨1⟩ (.new "a" "audio" .auto)
    (∃ added, added.length = 2 ∧
      Heard (.new "a" "audio" .auto) .standard impatient outOfOrder added o) ∧
      o.result = .ok .cancelled := by
  obtain ⟨added, hheard⟩ := heard_execute "a" "audio" .auto .empty [] .standard outOfOrder
    impatient ⟨0⟩ ⟨1⟩ rfl
  have hcount : added.length = 2 := by
    rw [← Timeline.length_progressAlong Options.standard.recording [] added, ← hheard.reports]
    decide +kernel
  have hstop := hheard.stops 1 (by omega) (by decide +kernel)
  exact ⟨⟨added, hcount, hheard⟩, hstop.2.1⟩

end Execute

end SpeechTranscript.Transcription
