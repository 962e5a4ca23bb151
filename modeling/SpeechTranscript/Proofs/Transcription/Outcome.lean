import SpeechTranscript.Proofs.Session.Atomicity
import SpeechTranscript.Proofs.Session.Consistency
import SpeechTranscript.Proofs.Session.History
import SpeechTranscript.Proofs.Transcription.Course

/-!
# How a transcription ends

A transcription takes the events of its session after every step. Whichever way it ends (all
utterances through, stopped by the listener, or something refused on the way), it has taken exactly
what the session has recorded since, from the start to one event that tells the end, and the result
it returns agrees with the session it leaves behind.

* `Follows`, `Underway`: what holds as long as a transcription goes on.
* `Concluded`, `concluded_execute`: what holds in the end.
-/

namespace SpeechTranscript

/-- The event that tells of an end. -/
def Status.ending? : Status → Option Kind
  | .completed => some .completed
  | .failed => some .failed
  | .cancelled => some .cancelled
  | .pending | .processing => none

namespace Transcription

open Session

/-! ## Taking what is recorded -/

section Follows

variable {listener : Listener} {s next : Session} {c : Course}

/-- Reporting to the listener changes none of the events taken. -/
theorem events_foldl_report (listener : Listener) (events : List Event) (state : Bool × Course) :
    (events.foldl (Course.report listener) state).2.events = state.2.events := by
  induction events generalizing state with
  | nil => rfl
  | cons event rest ih =>
    rw [List.foldl_cons, ih, Course.report]
    split <;> rfl

/-- Taking the events of a session adds them to those taken before. -/
theorem events_takeEvents (listener : Listener) (c : Course) :
    (c.takeEvents listener).2.events.toList = c.events.toList ++ c.session.outbox.pending := by
  have hevents : (c.takeEvents listener).2.events = c.events ++ c.session.outbox.pending :=
    events_foldl_report listener _ _
  rw [hevents, Array.toList_appendList]

/-- The session of a course is that of a run, and the events taken so far with those that still wait
are the events that the run has recorded. -/
def Follows (s : Session) (c : Course) : Prop :=
  ∃ steps, c.session = s.run steps ∧
    c.events.toList ++ c.session.outbox.pending = s.outbox.pending ++ recorded s steps

theorem follows_self (s : Session) : Follows s ⟨s, #[], #[]⟩ :=
  ⟨[], rfl, (List.append_nil _).symm⟩

/-- A step of the session with the taking of its events. -/
theorem Follows.step (h : Follows s c) (step : Instant × Command) {c' : Course}
    (hsession : c'.session = c.session.after step)
    (hevents : c'.events.toList = c.events.toList ++ takenIn c.session step) : Follows s c' := by
  obtain ⟨steps, hrun, hrecorded⟩ := h
  refine ⟨steps ++ [step], ?_, ?_⟩
  · rw [hsession, hrun, run_append, run_cons, run_nil]
  · have hmore : recorded s (steps ++ [step]) = recorded s steps ++ recordedIn (s.run steps) step :=
      noted_append_singleton recordedIn s steps step
    rw [hevents, hsession, List.append_assoc, takenIn_append_pending, ← List.append_assoc,
      hrecorded, hrun, hmore, List.append_assoc]

/-- An operation that is carried out, its events not taken yet. -/
theorem Follows.withSession (h : Follows s c) (now : Instant) (command : Command)
    (hnext : perform now command c.session = .ok () next) (hcommand : command ≠ .drain) :
    Follows s (c.withSession next) := by
  refine h.step (now, command) ?_ ?_
  · rw [after, afterwards, hnext]
    rfl
  · have htaken : takenIn c.session (now, command) = [] := by
      cases command with
      | drain => contradiction
      | _ => rfl
    rw [htaken, List.append_nil]
    rfl

theorem Follows.takeEvents (h : Follows s c) (listener : Listener) :
    Follows s (c.takeEvents listener).2 :=
  h.step (⟨0⟩, .drain) (session_takeEvents listener c) (events_takeEvents listener c)

/-- Once all events are taken, they are the recorded ones. -/
theorem Follows.exists_recorded (h : Follows s c) (hfirst : s.outbox.pending = [])
    (htaken : c.session.outbox.pending = []) :
    ∃ steps, c.session = s.run steps ∧ c.events.toList = recorded s steps := by
  obtain ⟨steps, hrun, hrecorded⟩ := h
  rw [hfirst, htaken, List.append_nil, List.nil_append] at hrecorded
  exact ⟨steps, hrun, hrecorded⟩

end Follows

/-! ## Under way -/

section Underway

variable {options : Options} {listener : Listener} {s next : Session} {c : Course}

/-- A transcription that has started and taken all events so far. -/
structure Underway (s : Session) (c : Course) : Prop where
  processing : c.session.status = .processing
  taken : c.session.outbox.pending = []
  follows : Follows s c

/-- An operation that keeps a session processing, with the events taken after it. -/
theorem Underway.takeEvents (h : Follows s c) (hs : c.session.status = .processing)
    (listener : Listener) : Underway s (c.takeEvents listener).2 where
  processing := by
    rw [session_takeEvents]
    exact hs
  taken := by
    rw [session_takeEvents]
    rfl
  follows := h.takeEvents listener

theorem withSession_self (c : Course) : c.withSession c.session = c := rfl

/-- Feeding a transcription keeps it under way, wherever it stops. -/
theorem Underway.feed (h : Underway s c) (options : Options) (listener : Listener) (number : ℕ)
    (utterances : List Utterance) :
    Underway s (Transcription.feed options listener number c utterances).1 := by
  induction utterances generalizing number c with
  | nil => exact h
  | cons utterance rest ih =>
    rw [Transcription.feed]
    cases utterance.toSegment (UInt32.ofNat number) with
    | error refusal => exact h
    | ok segment =>
      dsimp only
      rcases settles_perform ⟨0⟩ (.add segment) c.session with
        ⟨next, heq, heffect⟩ | ⟨refusal, heq⟩
      · rw [perform] at heq
        rw [heq]
        dsimp only
        -- adding a segment is no end of a session
        have hprocessing : (c.withSession next).session.status = .processing := by
          cases heffect with
          | add processing accepted => exact processing
        have hfollows : Follows s (c.withSession next) :=
          h.follows.withSession ⟨0⟩ (.add segment) heq (by simp)
        have htaken := Underway.takeEvents hfollows hprocessing listener
        split
        · exact ih htaken _
        · exact htaken
      · rw [perform] at heq
        rw [heq]
        dsimp only
        -- a refused segment leaves the course as it is
        rw [withSession_self]
        split
        · exact ih h _
        · exact h

end Underway

/-! ## Ended -/

section Ended

variable {options : Options} {listener : Listener} {s next : Session} {c : Course}
  {status : Status}

/-- A transcription whose session has come to an end, with one event that tells of it not taken
yet. -/
structure Ended (s : Session) (c : Course) (status : Status) : Prop where
  status_eq : c.session.status = status
  told : ∃ event kind, c.session.outbox.pending = [event] ∧ status.ending? = some kind ∧
    event.what.kind = kind
  opened : c.events.toList.map (·.what.kind) ∈ Status.opening.matches'
  follows : Follows s c

/-- What a transcription that is under way has taken tells of a start and of segments. -/
theorem Underway.mem_opening (h : Underway s c) (hfirst : Chronicled s [])
    (hempty : s.outbox.pending = []) :
    c.events.toList.map (·.what.kind) ∈ Status.opening.matches' := by
  obtain ⟨steps, hrun, hrecorded⟩ := h.follows.exists_recorded hempty h.taken
  have htold := (chronicled_run hfirst steps).told.mem_opening (hrun ▸ h.processing)
  rw [history, taken_append_pending, hempty, List.nil_append] at htold
  rwa [hrecorded]

/-- A command that records one event that tells of an end ends a transcription. -/
theorem Underway.ended (h : Underway s c) (hfirst : Chronicled s [])
    (hempty : s.outbox.pending = []) {now : Instant} (command : Command) (what : Happening)
    (hnext : perform now command c.session = .ok () next) (hcommand : command ≠ .drain)
    (hpending : next.outbox.pending = c.session.outbox.pending ++
      [⟨c.session.id, what⟩]) (hending : next.status.ending? = some what.kind) :
    Ended s (c.withSession next) next.status where
  status_eq := rfl
  told := by
    rw [h.taken, List.nil_append] at hpending
    exact ⟨_, _, hpending, hending, rfl⟩
  opened := h.mem_opening hfirst hempty
  follows := h.follows.withSession now command hnext hcommand

theorem fail_of_processing (hs : s.status = .processing) (message code : String) (now : Instant) :
    s.fail message code now = s.failedWith message code now :=
  if_neg (by rw [hs]; decide)

/-- Failing ends a transcription. -/
theorem Underway.fail (h : Underway s c) (hfirst : Chronicled s [])
    (hempty : s.outbox.pending = []) (now : Instant) (message code : String) :
    Ended s (c.withSession (c.session.fail message code now)) .failed := by
  have hfail := fail_of_processing h.processing message code now
  have hperform : perform now (.fail message code) c.session =
      .ok () (c.session.fail message code now) := rfl
  rw [hfail] at hperform ⊢
  exact h.ended hfirst hempty (.fail message code) (.failed message code) hperform (by simp) rfl rfl

theorem cancel_of_processing (hs : s.status = .processing) (reason : Option String)
    (now : Instant) : Session.cancel reason now s = .ok () (s.cancelledFor reason now) := by
  show (if s.status.isTerminal then throw _ else modify _ : Change Unit) s = _
  rw [if_neg (by rw [hs]; decide)]
  rfl

/-- Cancelling ends a transcription. -/
theorem Underway.cancel (h : Underway s c) (hfirst : Chronicled s [])
    (hempty : s.outbox.pending = []) (now : Instant) (reason : Option String) :
    ∃ c', conclude c (Session.cancel reason now) = (c', .ok ()) ∧ Ended s c' .cancelled := by
  have hcancel := cancel_of_processing h.processing reason now
  refine ⟨c.withSession (c.session.cancelledFor reason now), by rw [conclude, hcancel], ?_⟩
  exact h.ended hfirst hempty (.cancel reason) (.cancelled reason) hcancel (by simp) rfl rfl

/-- Completing ends a transcription, or it is refused. -/
theorem Underway.complete (h : Underway s c) (hfirst : Chronicled s [])
    (hempty : s.outbox.pending = []) (now : Instant) :
    (∃ next, Session.complete now c.session = .ok () next ∧
      Ended s (c.withSession next) .completed) ∨
    ∃ refusal, Session.complete now c.session = .error refusal c.session := by
  rcases settles_perform now .complete c.session with ⟨next, heq, heffect⟩ | ⟨refusal, heq⟩
  · refine .inl ⟨next, heq, ?_⟩
    cases heffect with
    | @complete text processing nonempty composed =>
      exact h.ended hfirst hempty .complete (.completed ..) heq (by simp) rfl rfl
  · exact .inr ⟨refusal, heq⟩

/-- A merge keeps a transcription under way. -/
theorem Underway.merge (h : Underway s c) {now : Instant} {gap : Float}
    (hnext : perform now (.merge gap) c.session = .ok () next) :
    Underway s (c.withSession next) where
  processing := (effect_of_perform hnext).merged.2
  taken := by
    cases effect_of_perform hnext with
    | mergeFew | merge => exact h.taken
  follows := h.follows.withSession now (.merge gap) hnext (by simp)

/-- Closing ends a transcription, or it is refused and the transcription is still under way. -/
theorem Underway.close (h : Underway s c) (hfirst : Chronicled s [])
    (hempty : s.outbox.pending = []) (options : Options) (now : Instant) :
    (∃ c', conclude c (close options now) = (c', .ok ()) ∧ Ended s c' .completed) ∨
      ∃ c' refusal, conclude c (close options now) = (c', .error refusal) ∧ Underway s c' := by
  rw [conclude]
  cases hmerge : options.mergeAdjacent with
  | false =>
    rw [close_of_not_merge hmerge]
    rcases h.complete hfirst hempty now with ⟨next, heq, hended⟩ | ⟨refusal, heq⟩
    · rw [heq]
      exact .inl ⟨_, rfl, hended⟩
    · rw [heq]
      exact .inr ⟨_, _, rfl, h⟩
  | true =>
    rw [close_of_merge hmerge, EStateM.bind]
    rcases settles_perform now (.merge options.mergeGap) c.session with
      ⟨between, heq, -⟩ | ⟨refusal, heq⟩
    · -- the merge is done and stays done if completing is refused
      have hmerged := h.merge heq
      rw [perform] at heq
      rw [heq]
      dsimp only
      rcases hmerged.complete hfirst hempty now with ⟨next, heq', hended⟩ | ⟨refusal, heq'⟩
      · rw [show Session.complete now between = _ from heq']
        exact .inl ⟨_, rfl, hended⟩
      · rw [show Session.complete now between = _ from heq']
        exact .inr ⟨_, _, rfl, hmerged⟩
    · rw [perform] at heq
      rw [heq]
      exact .inr ⟨_, _, rfl, h⟩

/-- A recognizer's output leads a transcription to its end, or something is refused while it is
under way. -/
theorem Underway.process (h : Underway s c) (hfirst : Chronicled s [])
    (hempty : s.outbox.pending = []) (options : Options) (listener : Listener) (now : Instant)
    (utterances : List Utterance) :
    (∃ c' status, process options listener now c utterances = (c', .ok ()) ∧
      Ended s c' status ∧ (status = .completed ∨ status = .cancelled)) ∨
    ∃ c' refusal, process options listener now c utterances = (c', .error refusal) ∧
      Underway s c' := by
  have hfed := h.feed options listener 0 utterances
  rw [Transcription.process]
  generalize Transcription.feed options listener 0 c utterances = fed at hfed
  obtain ⟨c', result⟩ := fed
  cases result with
  | error refusal => exact .inr ⟨c', refusal, rfl, hfed⟩
  | ok goesOn =>
    -- the listener has stopped the feeding, or the session is to be closed
    cases goesOn with
    | false =>
      obtain ⟨ended, heq, hended⟩ := hfed.cancel hfirst hempty now (some stopReason)
      exact .inl ⟨ended, _, heq, hended, .inr rfl⟩
    | true =>
      rcases hfed.close hfirst hempty options now with
        ⟨ended, heq, hended⟩ | ⟨left, refusal, heq, hleft⟩
      · exact .inl ⟨ended, _, heq, hended, .inl rfl⟩
      · exact .inr ⟨left, refusal, heq, hleft⟩

end Ended

/-! ## Whole transcriptions -/

section Execute

variable {options : Options} {listener : Listener} {s : Session} {c : Course} {status : Status}

/-- What a transcription has recorded in the end: all events taken, which are those that the
session has recorded in a run, a start first, then segments, and last one event that tells the
end. -/
structure Delivered (s : Session) (c : Course) : Prop where
  taken : c.session.outbox.isEmpty = true
  recorded : ∃ steps, c.session = s.run steps ∧ c.events.toList = recorded s steps
  told : ∃ kind, c.session.status.ending? = some kind ∧
    c.events.toList.map (·.what.kind) ∈ (Status.opening * .char kind).matches'

/-- Taking the last event delivers a transcription. -/
theorem Ended.delivered (h : Ended s c status) (hempty : s.outbox.pending = [])
    (listener : Listener) : Delivered s (c.takeEvents listener).2 where
  taken := by
    rw [session_takeEvents]
    rfl
  recorded := (h.follows.takeEvents listener).exists_recorded hempty
    (by rw [session_takeEvents]; rfl)
  told := by
    obtain ⟨event, kind, hpending, hending, hkind⟩ := h.told
    refine ⟨kind, ?_, ?_⟩
    · rw [session_takeEvents]
      show c.session.status.ending? = some kind
      rw [h.status_eq, hending]
    · rw [events_takeEvents, hpending, List.map_append, List.map_singleton, hkind]
      exact append_mem_mul_char _ h.opened

/-- The result of a transcription agrees with the session it leaves behind. -/
def Agrees (o : Outcome) : Prop :=
  match o.result with
  | .ok status => o.course.session.status = status ∧ (status = .completed ∨ status = .cancelled)
  | .error failure => o.course.session.status = .failed ∧
      o.course.session.errorMessage = some failure.message ∧
      o.course.session.errorCode = some failure.code

/-- A refusal on the way ends a transcription as failed, with the message and code of the refusal.
-/
theorem Underway.failed (h : Underway s c) (hfirst : Chronicled s [])
    (hempty : s.outbox.pending = []) (listener : Listener) (now : Instant) (failure : Failure) :
    Delivered s (failed listener now c failure).course ∧
      Agrees (failed listener now c failure) := by
  refine ⟨(h.fail hfirst hempty now failure.message failure.code).delivered hempty listener, ?_⟩
  have hfail := fail_of_processing h.processing failure.message failure.code now
  rw [Agrees, Transcription.failed]
  dsimp only
  rw [session_takeEvents, Course.withSession, hfail]
  exact ⟨rfl, rfl, rfl⟩

/-- A session that is still pending has no history. -/
theorem chronicled_of_pending {reason : Option String} (h : Consistent reason s)
    (hs : s.status = .pending) : Chronicled s [] ∧ s.outbox.pending = [] := by
  obtain ⟨-, -, hversion, hempty⟩ := h.pending hs
  have hpending : s.outbox.pending = [] := List.isEmpty_iff.1 hempty
  have hhistory : history s [] = [] := hpending
  refine ⟨⟨rfl, ⟨?_, fun hprocessing => ?_⟩, ?_, ?_, ?_⟩, hpending⟩
  · rw [hhistory, run_nil, hs]
    rfl
  · rw [run_nil, hs] at hprocessing
    contradiction
  · rw [hhistory]
    exact nofun
  · rw [hhistory]
    rfl
  · rw [hhistory]
    exact hversion

/-- A pending session can be started. -/
theorem start_of_pending (hs : s.status = .pending) (recording : Option Duration) (model : String)
    (now : Instant) :
    Session.start recording model now s = .ok () (s.begun recording model now) := by
  show (if s.status = .pending then pure () else throw _ : Change Unit).bind _ s = _
  rw [if_pos hs]
  rfl

/-- Starting a pending session sets a transcription under way. -/
theorem underway_of_start (hs : s.status = .pending) (options : Options) (listener : Listener)
    (started : Instant) :
    Underway s (Course.takeEvents listener
      ⟨s.begun options.recording options.model started, #[], #[]⟩).2 := by
  have hfollows := (follows_self s).withSession started
    (.start options.recording options.model) (start_of_pending hs _ _ _) (by simp)
  exact .takeEvents hfollows rfl listener

/-- A transcription of a pending session delivers all of its events and agrees with the session. -/
theorem concluded_execute (hs : s.status = .pending) (hfirst : Chronicled s [])
    (hempty : s.outbox.pending = []) (options : Options)
    (source : Except String (List Utterance)) (listener : Listener) (started finished : Instant) :
    Delivered s (execute options source listener started finished s).course ∧
      Agrees (execute options source listener started finished s) := by
  have hbegun := underway_of_start hs options listener started
  rw [execute, start_of_pending hs]
  dsimp only
  generalize (Course.takeEvents listener ⟨_, #[], #[]⟩).2 = c at hbegun
  cases source with
  | error message => exact hbegun.failed hfirst hempty listener finished (.source message)
  | ok utterances =>
    dsimp only
    -- the utterances lead to an end, or a refusal does
    rcases hbegun.process hfirst hempty options listener finished utterances with
      ⟨ended, status, heq, hended, hstatus⟩ | ⟨left, refusal, heq, hleft⟩
    · rw [heq]
      refine ⟨hended.delivered hempty listener, rfl, ?_⟩
      rw [session_takeEvents]
      exact hended.status_eq ▸ hstatus
    · rw [heq]
      exact hleft.failed hfirst hempty listener finished (.refused refusal)

/-- A failure of the source is the result of the transcription. -/
theorem result_execute_of_source_error (hs : s.status = .pending) (options : Options)
    (message : String) (listener : Listener) (started finished : Instant) :
    (execute options (.error message) listener started finished s).result =
      .error (.source message) := by
  rw [execute, start_of_pending hs]
  rfl

/-- How a transcription ends. A pending session is left completed, cancelled or failed, as the
result says, and all that it has recorded since has been taken; the failure of the source has a code
of its own. Any other session is refused and stays as it is. -/
theorem outcome_execute (id audioId : String) (language : Language) (parameters : Parameters)
    (steps : List (Instant × Command)) (options : Options)
    (source : Except String (List Utterance)) (listener : Listener) (started finished : Instant) :
    let s := ((new id audioId language).withParameters parameters).run steps
    let o := execute options source listener started finished s
    (s.status = .pending → Delivered s o.course ∧ Agrees o ∧
      ∀ message, source = .error message → o.result = .error (.source message) ∧
        o.course.session.errorCode = some "TRANSCRIPTION_ERROR") ∧
    (s.status ≠ .pending → o.result = .error (.refused (.wrongStatus .start s.status)) ∧
      o.course.events = #[] ∧ o.course.session = s) := by
  intro s o
  constructor
  · intro hs
    obtain ⟨reason, hconsistent⟩ :=
      (Consistent.new id audioId language parameters).exists_run steps
    obtain ⟨hfirst, hempty⟩ := chronicled_of_pending hconsistent hs
    obtain ⟨hdelivered, hagrees⟩ :=
      concluded_execute hs hfirst hempty options source listener started finished
    refine ⟨hdelivered, hagrees, ?_⟩
    rintro message rfl
    have hresult := result_execute_of_source_error hs options message listener started finished
    rw [Agrees, hresult] at hagrees
    exact ⟨hresult, hagrees.2.2⟩
  · intro hs
    -- no event is recorded and none taken, as the start is refused
    have hrefused : Session.start options.recording options.model started s =
        .error (.wrongStatus .start s.status) s := require_bind_of_ne hs _
    have ho : o = ⟨⟨s, #[], #[]⟩, .error (.refused (.wrongStatus .start s.status))⟩ := by
      show execute options source listener started finished s = _
      rw [execute, hrefused]
    rw [ho]
    exact ⟨rfl, rfl, rfl⟩

end Execute

end Transcription

end SpeechTranscript
