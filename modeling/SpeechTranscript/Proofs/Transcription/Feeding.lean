import SpeechTranscript.Proofs.Segment
import SpeechTranscript.Proofs.Timeline.Progress
import SpeechTranscript.Proofs.Transcription.Outcome

/-!
# How a transcription is fed

The utterances of a recognizer go into a transcription one by one. Each of them becomes a segment
that is accepted, or it is left out, or the feeding ends with it. What one utterance can do is said
once, and what a whole transcription makes of its session is told by that.

* `Fed`, `fed_feed`: the ways in which utterances are fed.
* `Fed.exists_taken`: the utterances that have made it into the session, and what is told of them.
* `Leaves`, `exists_fed_of_execute`: what a transcription leaves behind of what was fed.
-/

namespace SpeechTranscript

/-! ## From an utterance to a segment -/

/-- Checked construction keeps the name that is given. -/
theorem Segment.id_of_build {id : String} {start stop : Duration} {text : Text}
    {confidence : Confidence} {sequence : UInt32} {s : Segment}
    (h : build id start stop text confidence sequence = .ok s) : s.id = id := by
  unfold build at h
  split at h
  · split at h
    · cases h
      rfl
    · contradiction
  · contradiction

/-- The name of the segment that an utterance becomes, and its text. -/
theorem Utterance.toSegment_eq_ok {utterance : Utterance} {fallback : UInt32} {segment : Segment}
    (h : utterance.toSegment fallback = .ok segment) :
    segment.id = Segment.numberedId (utterance.sequence.getD fallback) ∧
      segment.text.content = Text.trimmed utterance.text := by
  obtain ⟨start, -, h⟩ := bind_eq_ok_iff.1 h
  obtain ⟨stop, -, h⟩ := bind_eq_ok_iff.1 h
  obtain ⟨text, htext, h⟩ := bind_eq_ok_iff.1 h
  obtain ⟨confidence, -, h⟩ := bind_eq_ok_iff.1 h
  obtain ⟨built, hbuild, h⟩ := bind_eq_ok_iff.1 h
  cases h
  -- the speaker and the language are set last and change neither
  obtain ⟨-, -, hbuilt, -⟩ := Segment.build_eq_ok hbuild
  have hid := Segment.id_of_build hbuild
  refine ⟨hid, ?_⟩
  show built.text.content = _
  rw [hbuilt, Segment.content_of_finalized (orRefuse_eq_ok_iff.1 htext)]

/-! ## From a segment to the course -/

namespace Happening

/-- The name of an accepted segment and the progress that is reported of it. -/
def processed? : Happening → Option (String × Progress)
  | .segmentProcessed segment progress => some (segment, progress)
  | _ => none

end Happening

namespace Course

/-- What the events taken so far tell of accepted segments. -/
def processed (c : Course) : List (String × Progress) :=
  c.events.toList.filterMap (·.what.processed?)

/-- The course with one more segment on its timeline, the event of it taken and its progress
reported. -/
def added (c : Course) (segment : Segment) (next : Timeline) : Course where
  session := { (c.session.withSegments next).record
    (.segmentProcessed segment.id (next.progress c.session.recording)) with outbox := .empty }
  events := c.events.push
    ⟨c.session.id, .segmentProcessed segment.id (next.progress c.session.recording)⟩
  reports := c.reports.push (next.progress c.session.recording)

section Added

variable (c : Course) (segment : Segment) (next : Timeline)

@[simp] theorem reports_added :
    (c.added segment next).reports = c.reports.push (next.progress c.session.recording) := rfl

/-- One more segment is one more event, which tells of the same progress as the report. -/
@[simp] theorem processed_added : (c.added segment next).processed =
    c.processed ++ [(segment.id, next.progress c.session.recording)] := by
  simp [processed, added, Happening.processed?]

end Added

end Course

namespace Transcription

open Session

/-! ## One utterance after the other -/

/-- How utterances are fed, the first of which is numbered `number`: from a course to a course, with
what `feed` tells of the end. -/
inductive Fed (options : Options) (listener : Listener) :
    ℕ → Course → List Utterance → Course → Except Refusal Bool → Prop where
  | all (number : ℕ) (c : Course) : Fed options listener number c [] c (.ok true)
  | unfit {number : ℕ} (c : Course) {utterance : Utterance} (rest : List Utterance)
      {refusal : Refusal} (unfit : utterance.toSegment (UInt32.ofNat number) = .error refusal) :
      Fed options listener number c (utterance :: rest) c (.error refusal)
  | left {number : ℕ} {c last : Course} {utterance : Utterance} {rest : List Utterance}
      {segment : Segment} {refusal : Refusal} {result : Except Refusal Bool}
      (fit : utterance.toSegment (UInt32.ofNat number) = .ok segment)
      (conflict : c.session.segments.accept segment = .error refusal)
      (skipped : skips options refusal = true)
      (more : Fed options listener (number + 1) c rest last result) :
      Fed options listener number c (utterance :: rest) last result
  | refused {number : ℕ} (c : Course) {utterance : Utterance} (rest : List Utterance)
      {segment : Segment} {refusal : Refusal}
      (fit : utterance.toSegment (UInt32.ofNat number) = .ok segment)
      (conflict : c.session.segments.accept segment = .error refusal)
      (kept : skips options refusal = false) :
      Fed options listener number c (utterance :: rest) c (.error refusal)
  | added {number : ℕ} {c last : Course} {utterance : Utterance} {rest : List Utterance}
      {segment : Segment} {next : Timeline} {result : Except Refusal Bool}
      (fit : utterance.toSegment (UInt32.ofNat number) = .ok segment)
      (accepted : c.session.segments.accept segment = .ok next)
      (goesOn : listener (c.added segment next).reports = true)
      (more : Fed options listener (number + 1) (c.added segment next) rest last result) :
      Fed options listener number c (utterance :: rest) last result
  | stopped {number : ℕ} (c : Course) {utterance : Utterance} (rest : List Utterance)
      {segment : Segment} {next : Timeline}
      (fit : utterance.toSegment (UInt32.ofNat number) = .ok segment)
      (accepted : c.session.segments.accept segment = .ok next)
      (stops : listener (c.added segment next).reports = false) :
      Fed options listener number c (utterance :: rest) (c.added segment next) (.ok false)

section Feed

variable {options : Options} {listener : Listener} {number : ℕ} {c last : Course}
  {utterances : List Utterance} {result : Except Refusal Bool}

/-- An event is all that waits once it is recorded, if nothing has waited before. -/
theorem pending_record {s : Session} (hempty : s.outbox.pending = []) (what : Happening) :
    (s.record what).outbox.pending = [⟨s.id, what⟩] := by
  rw [record, Outbox.pending_push, hempty, List.nil_append]

/-- The one event that waits is taken, and its progress is reported. -/
theorem takeEvents_added (htaken : c.session.outbox.pending = []) (listener : Listener)
    (segment : Segment) (next : Timeline) :
    (c.withSession ((c.session.withSegments next).record
        (.segmentProcessed segment.id (next.progress c.session.recording)))).takeEvents listener =
      (listener (c.added segment next).reports, c.added segment next) := by
  have hpending := pending_record (s := c.session.withSegments next) htaken
    (.segmentProcessed segment.id (next.progress c.session.recording))
  simp only [Course.takeEvents, Course.withSession, drain, Outbox.drain, hpending, List.foldl_cons,
    List.foldl_nil, Course.report, Bool.true_and]
  rfl

/-- Feeding goes one of these ways. -/
theorem fed_feed (options : Options) (listener : Listener) (number : ℕ) (utterances : List Utterance)
    (hc : c.session.status = .processing) (htaken : c.session.outbox.pending = []) :
    Fed options listener number c utterances (feed options listener number c utterances).1
      (feed options listener number c utterances).2 := by
  induction utterances generalizing number c with
  | nil => exact .all number c
  | cons utterance rest ih =>
    rw [feed]
    cases hfit : utterance.toSegment (UInt32.ofNat number) with
    | error refusal => exact .unfit c rest hfit
    | ok segment =>
      -- the session is processing, so the segment is accepted or refused by its timeline alone
      dsimp only
      have hadd := addSegment_of_processing hc segment
      cases haccept : c.session.segments.accept segment with
      | error refusal =>
        rw [haccept] at hadd
        rw [hadd]
        dsimp only
        rw [withSession_self]
        cases hskip : skips options refusal with
        | true => exact .left hfit haccept hskip (ih (number + 1) hc htaken)
        | false => exact .refused c rest hfit haccept hskip
      | ok next =>
        rw [haccept] at hadd
        rw [hadd]
        dsimp only
        rw [takeEvents_added htaken]
        dsimp only
        cases hlisten : listener (c.added segment next).reports with
        | true => exact .added hfit haccept hlisten (ih (number + 1) hc rfl)
        | false => exact .stopped c rest hfit haccept hlisten

/-- Utterances that have made it into a session, with their places in the recognizer's output, the
first place of which is `number`, and the segments they have become. -/
structure Taken (number : ℕ) (utterances : List Utterance) (taken : List (Utterance × ℕ))
    (added : List Segment) : Prop where
  sublist : taken.Sublist (utterances.zipIdx number)
  segments : List.Forall₂
    (fun entry segment => entry.1.toSegment (UInt32.ofNat entry.2) = .ok segment) taken added

theorem taken_nil (number : ℕ) (utterances : List Utterance) : Taken number utterances [] [] :=
  ⟨List.nil_sublist _, .nil⟩

section Taken

variable {utterance : Utterance} {segment : Segment} {taken : List (Utterance × ℕ)}
  {added : List Segment}

/-- An utterance that is left out has no place among those taken, but it counts for the places
behind it. -/
theorem Taken.skip (h : Taken (number + 1) utterances taken added) (utterance : Utterance) :
    Taken number (utterance :: utterances) taken added :=
  ⟨h.sublist.cons _, h.segments⟩

/-- An utterance that is taken comes before the others, as the segment that it becomes. -/
theorem Taken.cons (h : Taken (number + 1) utterances taken added)
    (fit : utterance.toSegment (UInt32.ofNat number) = .ok segment) :
    Taken number (utterance :: utterances) ((utterance, number) :: taken) (segment :: added) :=
  ⟨h.sublist.cons_cons _, .cons fit h.segments⟩

end Taken

/-- What it makes of a course to have more segments: they are placed on the timeline, each of them is
told of in an event and reported, and the listener that stops it all does so with the last report. -/
structure Grows (listener : Listener) (c last : Course) (added : List Segment)
    (result : Except Refusal Bool) : Prop where
  segments : last.session.segments = c.session.segments.placed added
  reports : last.reports.toList =
    c.reports.toList ++ c.session.segments.progressAlong c.session.recording added
  processed : last.processed = c.processed ++
    (added.map (·.id)).zip (c.session.segments.progressAlong c.session.recording added)
  stops : ∀ k, c.reports.size ≤ k → k < last.reports.size →
    listener (last.reports.take (k + 1)) = false → k + 1 = last.reports.size ∧ result = .ok false

section Grows

variable {segment : Segment} {added : List Segment}

/-- A course that takes nothing more grows by no segment. -/
theorem grows_self (listener : Listener) (c : Course) (result : Except Refusal Bool) :
    Grows listener c c [] result where
  segments := rfl
  reports := (List.append_nil _).symm
  processed := (List.append_nil _).symm
  stops := fun _ hlow hhigh => absurd hhigh hlow.not_gt

/-- Whoever stops a transcription stops it with the segment at hand. -/
theorem grows_added (listener : Listener) (c : Course) (segment : Segment) :
    Grows listener c (c.added segment (c.session.segments.place segment)) [segment]
      (.ok false) where
  segments := rfl
  reports := by
    rw [Course.reports_added, Array.toList_push]
    rfl
  processed := c.processed_added _ _
  stops := by
    intro k hlow hhigh _
    rw [Course.reports_added, Array.size_push] at hhigh ⊢
    exact ⟨by omega, rfl⟩

/-- A course that goes on after a segment. -/
theorem Grows.cons (h : Grows listener (c.added segment (c.session.segments.place segment)) last
      added result)
    (goesOn : listener (c.added segment (c.session.segments.place segment)).reports = true) :
    Grows listener c last (segment :: added) result := by
  have hreports : last.reports.toList = (c.added segment
      (c.session.segments.place segment)).reports.toList ++ _ := h.reports
  refine ⟨h.segments, ?_, ?_, ?_⟩
  · rw [hreports, Course.reports_added, Array.toList_push, List.append_assoc]
    rfl
  · rw [h.processed, Course.processed_added, List.append_assoc]
    rfl
  · intro k hlow hhigh hstop
    rcases Nat.eq_or_lt_of_le hlow with rfl | hlater
    · -- the report at hand was the last one then, and the listener let it pass
      have hcut : last.reports.take (c.reports.size + 1) =
          (c.added segment (c.session.segments.place segment)).reports := by
        rw [← Array.toList_inj, Array.take_eq_extract, Array.toList_extract,
          List.extract_eq_take_drop, List.drop_zero, hreports]
        exact List.take_left' (by simp)
      rw [hcut, goesOn] at hstop
      contradiction
    · -- a later report is one of the rest
      refine h.stops k ?_ hhigh hstop
      rw [Course.reports_added, Array.size_push]
      exact hlater

end Grows

/-- Feeding puts the segments of the utterances that it takes on the timeline and tells of them. -/
theorem Fed.exists_taken (h : Fed options listener number c utterances last result) :
    ∃ taken added, Taken number utterances taken added ∧ Grows listener c last added result := by
  induction h with
  | all number c => exact ⟨[], [], taken_nil _ _, grows_self _ _ _⟩
  | unfit c rest _ => exact ⟨[], [], taken_nil _ _, grows_self _ _ _⟩
  | left _ _ _ _ ih =>
    obtain ⟨taken, added, htaken, hgrows⟩ := ih
    exact ⟨taken, added, htaken.skip _, hgrows⟩
  | refused c rest _ _ _ => exact ⟨[], [], taken_nil _ _, grows_self _ _ _⟩
  | @added number c last utterance rest segment next result fit accepted goesOn _ ih =>
    obtain ⟨taken, added, htaken, hgrows⟩ := ih
    -- what is accepted is placed
    obtain ⟨-, rfl⟩ := Timeline.accept_eq_ok_iff.1 accepted
    exact ⟨(utterance, number) :: taken, segment :: added, htaken.cons fit, hgrows.cons goesOn⟩
  | @stopped number c utterance rest segment next fit accepted _ =>
    obtain ⟨-, rfl⟩ := Timeline.accept_eq_ok_iff.1 accepted
    exact ⟨[(utterance, number)], [segment], (taken_nil _ _).cons fit, grows_added _ _ _⟩

end Feed

/-! ## After the feeding -/

section Leaves

variable {options : Options} {listener : Listener} {s : Session} {fed c : Course}

/-- None of the events that wait reports progress. -/
def Quiet (s : Session) : Prop := s.outbox.pending.filterMap (·.what.processed?) = []

/-- Commands that add no segments tell of none: they leave the events that wait without progress. -/
theorem Quiet.after (h : Quiet s) (now : Instant) (command : Command)
    (hcommand : command.segments = []) : Quiet (s.after (now, command)) := by
  unfold Quiet at h ⊢
  rcases after_cases s (now, command) with ⟨-, heffect⟩ | ⟨-, hsame⟩
  · generalize s.after (now, command) = next at heffect ⊢
    cases heffect with
    | add => contradiction
    | @addAll batch segments reports processing staged =>
      -- a batch that adds nothing
      obtain rfl : batch = [] := hcommand
      cases staged
      exact h
    | start | complete | fail | cancel =>
      show List.filterMap _ (s.outbox.pending ++ [_]) = []
      rw [List.filterMap_append, h]
      rfl
    | drain => rfl
    | mergeFew | merge | failLate => exact h
  · rw [hsame]
    exact h

/-- What comes after the feeding reports no progress. It leaves the segments as they are, or merges
them if that is chosen. -/
structure Leaves (options : Options) (fed c : Course) : Prop where
  reports : c.reports = fed.reports
  processed : c.processed = fed.processed
  segments : c.session.segments = fed.session.segments ∨ options.mergeAdjacent = true ∧
    fed.session.segments.mergeAdjacent options.mergeGap = .ok c.session.segments
  quiet : Quiet c.session

theorem leaves_self (options : Options) (h : Quiet fed.session) : Leaves options fed fed :=
  ⟨rfl, rfl, .inl rfl, h⟩

/-- Commands that are to end a session. -/
def ends : Command → Bool
  | .complete | .fail .. | .cancel _ => true
  | _ => false

/-- A command that is to end the session leaves its segments alone, carried out or refused. -/
theorem Leaves.after (h : Leaves options fed c) (now : Instant) (command : Command)
    (hends : ends command = true) :
    Leaves options fed (c.withSession (c.session.after (now, command))) := by
  have hsegments : (c.session.after (now, command)).segments = c.session.segments := by
    rcases after_cases c.session (now, command) with ⟨-, heffect⟩ | ⟨-, hsame⟩
    · generalize c.session.after (now, command) = next at heffect
      cases heffect <;> first | rfl | contradiction
    · rw [hsame]
  refine ⟨h.reports, h.processed, ?_, h.quiet.after now command ?_⟩
  · rw [Course.withSession, hsegments]
    exact h.segments
  · cases command <;> first | rfl | contradiction

/-- A change concluded leaves the session that the change leaves behind. -/
theorem conclude_fst (c : Course) (change : Change Unit) :
    (conclude c change).1 = c.withSession (c.session.afterwards change) := by
  rw [conclude, afterwards]
  cases change c.session <;> rfl

/-- Closing merges the segments if that is chosen and leaves them as they are if not, whether or not
the session can then be completed. -/
theorem leaves_close (options : Options) (h : Quiet fed.session) (now : Instant) :
    Leaves options fed (conclude fed (close options now)).1 := by
  rw [conclude_fst]
  cases hmerge : options.mergeAdjacent with
  | false =>
    rw [afterwards, close_of_not_merge hmerge]
    exact (leaves_self options h).after now .complete rfl
  | true =>
    rw [afterwards, close_of_merge hmerge, EStateM.bind]
    rcases settles_perform now (.merge options.mergeGap) fed.session with
      ⟨between, heq, heffect⟩ | ⟨refusal, heq⟩
    · have hafter : fed.session.after (now, .merge options.mergeGap) = between := by
        rw [after, afterwards, heq]
      have hquiet := h.after now (.merge options.mergeGap) rfl
      rw [hafter] at hquiet
      -- merging comes first, and what it leaves is then to be completed
      have hbetween : Leaves options fed (fed.withSession between) :=
        ⟨rfl, rfl, .inr ⟨hmerge, heffect.merged.1⟩, hquiet⟩
      rw [perform] at heq
      rw [heq]
      exact hbetween.after now .complete rfl
    · rw [perform] at heq
      rw [heq]
      exact leaves_self options h

/-- Taking events adds the progress that they report. -/
theorem reports_takeEvents (listener : Listener) (c : Course) :
    (c.takeEvents listener).2.reports.toList = c.reports.toList ++
      (c.session.outbox.pending.filterMap (·.what.processed?)).map (·.2) := by
  have hfold : ∀ (events : List Event) (state : Bool × Course),
      (events.foldl (Course.report listener) state).2.reports.toList =
        state.2.reports.toList ++ (events.filterMap (·.what.processed?)).map (·.2) := by
    intro events
    induction events with
    | nil => exact fun state => (List.append_nil _).symm
    | cons event rest ih =>
      intro state
      rw [List.foldl_cons, ih, Course.report]
      cases hwhat : event.what <;> simp [Happening.processed?, hwhat]
  exact hfold _ _

theorem processed_takeEvents (listener : Listener) (c : Course) :
    (c.takeEvents listener).2.processed =
      c.processed ++ c.session.outbox.pending.filterMap (·.what.processed?) := by
  rw [Course.processed, events_takeEvents, List.filterMap_append]
  rfl

/-- Taking the last events changes nothing of the segments and reports nothing. -/
theorem Leaves.takeEvents (h : Leaves options fed c) (listener : Listener) :
    Leaves options fed (c.takeEvents listener).2 := by
  refine ⟨?_, ?_, ?_, ?_⟩
  · rw [← Array.toList_inj, reports_takeEvents, h.quiet, List.map_nil, List.append_nil, h.reports]
  · rw [processed_takeEvents, h.quiet, List.append_nil, h.processed]
  · rw [session_takeEvents]
    exact h.segments
  · rw [session_takeEvents]
    rfl

/-! ## Whole transcriptions -/

/-- A transcription that has started. -/
def opened (options : Options) (listener : Listener) (started : Instant) (s : Session) : Course :=
  (Course.takeEvents listener ⟨s.begun options.recording options.model started, #[], #[]⟩).2

/-- The end of a transcription that is under way. -/
def finish (options : Options) (listener : Listener) (finished : Instant) (c : Course)
    (utterances : List Utterance) : Outcome :=
  match process options listener finished c utterances with
  | (c, .error refusal) => failed listener finished c (.refused refusal)
  | (c, .ok ()) =>
    { course := (c.takeEvents listener).2, result := .ok (c.takeEvents listener).2.session.status }

/-- A transcription of a pending session is its start and its end. -/
theorem execute_eq_finish (hs : s.status = .pending) (options : Options)
    (utterances : List Utterance) (listener : Listener) (started finished : Instant) :
    execute options (.ok utterances) listener started finished s =
      finish options listener finished (opened options listener started s) utterances := by
  rw [execute, start_of_pending hs]
  rfl

/-- A transcription that is stopped ends cancelled; any other leaves the segments that were fed, or
merges them. -/
theorem leaves_finish {utterances : List Utterance} {result : Except Refusal Bool}
    (hfeed : feed options listener 0 c utterances = (fed, result)) (hfed : Underway s fed)
    (finished : Instant) :
    Leaves options fed (finish options listener finished c utterances).course ∧
      (result = .ok false → (finish options listener finished c utterances).result =
          .ok .cancelled ∧
        (finish options listener finished c utterances).course.session.status = .cancelled) := by
  have hquiet : Quiet fed.session := by
    rw [Quiet, hfed.taken]
    rfl
  have hfail : ∀ {c : Course} (failure : Failure), Leaves options fed c →
      Leaves options fed (failed listener finished c failure).course := fun failure h =>
    (h.after finished (.fail failure.message failure.code) rfl).takeEvents listener
  rw [finish, process, hfeed]
  cases result with
  | error refusal => exact ⟨hfail _ (leaves_self options hquiet), by simp⟩
  | ok goesOn =>
    cases goesOn with
    | false =>
      -- the listener has stopped it
      have hcancel := cancel_of_processing hfed.processing (some stopReason) finished
      have hleaves := (leaves_self options hquiet).after finished (.cancel (some stopReason)) rfl
      rw [after, afterwards, perform, hcancel] at hleaves
      dsimp only
      rw [conclude, hcancel]
      refine ⟨hleaves.takeEvents listener, fun _ => ?_⟩
      dsimp only
      rw [session_takeEvents]
      exact ⟨rfl, rfl⟩
    | true =>
      -- all utterances are through, so the session is closed
      have hclose := leaves_close options hquiet finished
      dsimp only
      generalize conclude fed (close options finished) = closed at hclose
      obtain ⟨c', result'⟩ := closed
      cases result' with
      | error refusal => exact ⟨hfail _ hclose, by simp⟩
      | ok => exact ⟨hclose.takeEvents listener, by simp⟩

/-- What a transcription of a pending session makes of a recognizer's output: the utterances are
fed, and what comes after leaves the segments that this has given. A transcription that the listener
has stopped ends cancelled. -/
theorem exists_fed_of_execute (hs : s.status = .pending) (options : Options)
    (utterances : List Utterance) (listener : Listener) (started finished : Instant) :
    let o := execute options (.ok utterances) listener started finished s
    ∃ fed result, Fed options listener 0 (opened options listener started s) utterances fed result ∧
      Leaves options fed o.course ∧
      (result = .ok false → o.result = .ok .cancelled ∧ o.course.session.status = .cancelled) := by
  have hopened := underway_of_start hs options listener started
  change Underway s (opened options listener started s) at hopened
  have hfed := fed_feed options listener 0 utterances hopened.processing hopened.taken
  have hunderway := hopened.feed options listener 0 utterances
  rw [execute_eq_finish hs]
  exact ⟨_, _, hfed, leaves_finish rfl hunderway finished⟩

section Opened

variable (options : Options) (listener : Listener) (started : Instant) (s : Session)

/-- A transcription starts with a session whose first event is taken. -/
theorem session_opened : (opened options listener started s).session =
    { s.begun options.recording options.model started with outbox := .empty } :=
  session_takeEvents listener _

theorem segments_opened : (opened options listener started s).session.segments = [] := by
  rw [session_opened]
  rfl

/-- A transcription starts with the length of the recording that is chosen. -/
theorem recording_opened :
    (opened options listener started s).session.recording = options.recording := by
  rw [session_opened]
  rfl

variable {s} (hempty : s.outbox.pending = [])
include hempty

/-- A transcription starts with nothing told of a segment. -/
theorem quiet_begun : Quiet (s.begun options.recording options.model started) := by
  rw [Quiet, begun, pending_record (by exact hempty)]
  rfl

theorem reports_opened : (opened options listener started s).reports = #[] := by
  rw [← Array.toList_inj, opened, reports_takeEvents, quiet_begun options started hempty]
  rfl

theorem processed_opened : (opened options listener started s).processed = [] := by
  rw [opened, processed_takeEvents, quiet_begun options started hempty]
  rfl

end Opened

/-- The segments of a transcription come from the utterances that have made it into the session. They
are merged only if that is chosen. -/
theorem exists_taken_of_execute (hs : s.status = .pending) (options : Options)
    (utterances : List Utterance) (listener : Listener) (started finished : Instant) :
    let segments :=
      (execute options (.ok utterances) listener started finished s).course.session.segments
    ∃ (taken : List (Utterance × ℕ)) (added : List Segment) (timeline : Timeline),
      Taken 0 utterances taken added ∧ timeline.Perm added ∧
      (segments = timeline ∨ options.mergeAdjacent = true ∧
        timeline.mergeAdjacent options.mergeGap = .ok segments) := by
  intro segments
  obtain ⟨fed, result, hfed, hleaves, -⟩ :=
    exists_fed_of_execute hs options utterances listener started finished
  obtain ⟨taken, added, htaken, hgrows⟩ := hfed.exists_taken
  refine ⟨taken, added, fed.session.segments, htaken, ?_, hleaves.segments⟩
  -- the session starts empty, so it holds what was added and no more
  have hperm := Timeline.placed_perm (opened options listener started s).session.segments added
  rwa [← hgrows.segments, segments_opened, List.append_nil] at hperm

end Leaves

end Transcription

end SpeechTranscript
