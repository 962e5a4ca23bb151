import SpeechTranscript.Proofs.Session.Effect
import SpeechTranscript.Transcription.Basic

/-!
# The course of a transcription

What a transcription makes of an utterance depends on the segments so far and on nothing else of the
session. So the segments that a recognizer's output leads to can be told without a session, and a
transcription that completes has gone through all of its steps with them.

* `collect`: the segments of a recognizer's output.
* `feed_eq_collect`: a session that is fed has collected them.
* `CompletedWith`, `completed_of_execute`: how a transcription without a listener can complete.
-/

namespace SpeechTranscript.Transcription

/-- The timeline with the segments of utterances, the first of which is numbered `number`. -/
def collect (options : Options) (number : Nat) (timeline : Timeline) :
    List Utterance → Except Refusal Timeline
  | [] => .ok timeline
  | utterance :: rest => do
    let segment ← utterance.toSegment (UInt32.ofNat number)
    match timeline.accept segment with
    | .ok next => collect options (number + 1) next rest
    | .error refusal =>
      if skips options refusal then collect options (number + 1) timeline rest
      else .error refusal

/-! ## Taking events -/

section TakeEvents

variable {listener : Listener}

/-- Reporting to the listener does not change the session. -/
theorem session_foldl_report (listener : Listener) (events : List Event) (state : Bool × Course) :
    (events.foldl (Course.report listener) state).2.session = state.2.session := by
  induction events generalizing state with
  | nil => rfl
  | cons event rest ih =>
    rw [List.foldl_cons, ih, Course.report]
    split <;> rfl

/-- Taking the events of a session leaves it without them. -/
theorem session_takeEvents (listener : Listener) (c : Course) :
    (c.takeEvents listener).2.session = { c.session with outbox := .empty } :=
  session_foldl_report listener _ _

/-- Whoever lets everything pass does not stop a transcription. -/
theorem takeEvents_goOn (h : ∀ reports, listener reports = true) (c : Course) :
    (c.takeEvents listener).1 = true := by
  -- an event that is no report changes nothing, and every report passes
  have hfold : ∀ (events : List Event) (state : Bool × Course), state.1 = true →
      (events.foldl (Course.report listener) state).1 = true := by
    intro events
    induction events with
    | nil => exact fun _ hstate => hstate
    | cons event rest ih =>
      intro state hstate
      refine ih _ ?_
      rw [Course.report]
      split
      · rw [hstate]
        exact h _
      · exact hstate
  exact hfold _ _ rfl

end TakeEvents

/-! ## Feeding -/

section Feed

variable {options : Options} {listener : Listener} {c : Course} {number : Nat}
  {utterance : Utterance} {segment : Segment}

/-- An utterance whose segment is not accepted leaves the course as it is. -/
theorem feed_cons_of_error (hc : c.session.status = .processing)
    (hsegment : utterance.toSegment (UInt32.ofNat number) = .ok segment) {refusal : Refusal}
    (haccept : c.session.segments.accept segment = .error refusal) (rest : List Utterance) :
    feed options listener number c (utterance :: rest) =
      if skips options refusal then feed options listener (number + 1) c rest
      else (c, .error refusal) := by
  have hadd := Session.addSegment_of_processing hc segment
  rw [haccept] at hadd
  simp only [feed, hsegment, hadd]
  rfl

/-- An utterance whose segment is accepted leaves a course that has it. -/
theorem feed_cons_of_ok (options : Options) (hl : ∀ reports, listener reports = true)
    (hc : c.session.status = .processing)
    (hsegment : utterance.toSegment (UInt32.ofNat number) = .ok segment) {next : Timeline}
    (haccept : c.session.segments.accept segment = .ok next) (rest : List Utterance) :
    ∃ c', feed options listener number c (utterance :: rest) =
        feed options listener (number + 1) c' rest ∧
      c'.session.status = .processing ∧ c'.session.segments = next := by
  have hadd := Session.addSegment_of_processing hc segment
  rw [haccept] at hadd
  simp only [feed, hsegment, hadd]
  generalize hgiven : (c.withSession ((c.session.withSegments next).record
    (.segmentProcessed segment.id (next.progress c.session.recording)))) = given
  -- taking the events changes nothing of the session but its outbox
  have hgoOn := takeEvents_goOn hl given
  have hsession := session_takeEvents listener given
  generalize given.takeEvents listener = taken at hgoOn hsession
  obtain ⟨goOn, c'⟩ := taken
  subst hgiven
  simp only at hgoOn hsession
  rw [hgoOn, if_pos rfl]
  refine ⟨c', rfl, ?_, ?_⟩
  · rw [hsession]
    exact hc
  · rw [hsession]
    rfl

/-- A session that is fed collects the segments of the utterances, or is refused what cannot be
collected. It goes on processing. -/
theorem feed_eq_collect (hl : ∀ reports, listener reports = true) (utterances : List Utterance)
    (number : Nat) (hc : c.session.status = .processing) :
    ∃ c', feed options listener number c utterances =
        (c', (collect options number c.session.segments utterances).map fun _ => true) ∧
      c'.session.status = .processing ∧
      ∀ segments, collect options number c.session.segments utterances = .ok segments →
        c'.session.segments = segments := by
  -- on the utterances, for every course: each one that is accepted changes it
  induction utterances generalizing number c with
  | nil => exact ⟨c, rfl, hc, fun segments h => by cases h; rfl⟩
  | cons utterance rest ih =>
    rw [collect]
    cases hsegment : utterance.toSegment (UInt32.ofNat number) with
    | error refusal =>
      refine ⟨c, ?_, hc, nofun⟩
      rw [feed, hsegment]
      rfl
    | ok segment =>
      simp only [bind, Except.bind]
      cases haccept : c.session.segments.accept segment with
      | error refusal =>
        rw [feed_cons_of_error hc hsegment haccept]
        dsimp only
        by_cases hskip : skips options refusal = true
        · rw [if_pos hskip, if_pos hskip]
          exact ih (number + 1) hc
        · rw [if_neg hskip, if_neg hskip]
          exact ⟨c, rfl, hc, nofun⟩
      | ok next =>
        obtain ⟨c', hfeed, hstatus, hsegments⟩ :=
          feed_cons_of_ok options hl hc hsegment haccept rest
        rw [hfeed, ← hsegments]
        exact ih (number + 1) hstatus

end Feed

/-! ## Closing -/

/-- A session is completed with collected segments, merged if that is chosen, and their text. -/
structure CompletedWith (options : Options) (segments : Timeline) (s : Session) : Prop where
  status_eq : s.status = .completed
  segments_eq : if options.mergeAdjacent then
    segments.mergeAdjacent options.mergeGap = .ok s.segments else s.segments = segments
  segments_ne_nil : s.segments ≠ []
  exists_text : ∃ text, s.segments.fullText = .ok text ∧ s.finalText = some text

section Close

variable {options : Options} {s : Session}

/-- Completing a session keeps its segments and stores their text. -/
theorem complete_cases (hs : s.status = .processing) (now : Instant) {segments : Timeline}
    (hsegments : if options.mergeAdjacent then
      segments.mergeAdjacent options.mergeGap = .ok s.segments else s.segments = segments) :
    (∃ next, Session.complete now s = .ok () next ∧ CompletedWith options segments next) ∨
      ∃ refusal next, Session.complete now s = .error refusal next ∧ next.status = .processing := by
  rcases Session.settles_perform now .complete s with ⟨next, heq, heffect⟩ | ⟨refusal, heq⟩
  · refine .inl ⟨next, heq, ?_⟩
    cases heffect with
    | complete processing nonempty composed => exact ⟨rfl, hsegments, nonempty, _, composed, rfl⟩
  · exact .inr ⟨refusal, s, heq, hs⟩

theorem close_of_not_merge (h : options.mergeAdjacent = false) (now : Instant) (s : Session) :
    close options now s = Session.complete now s := by
  rw [close, h]
  rfl

/-- Closing with merging is merging and then completing, if the merge is not refused. -/
theorem close_of_merge (h : options.mergeAdjacent = true) (now : Instant) (s : Session) :
    close options now s =
      EStateM.bind (Session.mergeAdjacent options.mergeGap) (fun _ => Session.complete now) s := by
  rw [close, h]
  rfl

/-- Closing completes a session, or it is refused and the session goes on processing. -/
theorem close_cases (hs : s.status = .processing) (now : Instant) :
    (∃ next, close options now s = .ok () next ∧ CompletedWith options s.segments next) ∨
      ∃ refusal next, close options now s = .error refusal next ∧ next.status = .processing := by
  cases hmerge : options.mergeAdjacent with
  | false =>
    rw [close_of_not_merge hmerge]
    exact complete_cases hs now (by rw [hmerge]; rfl)
  | true =>
    rw [close_of_merge hmerge, EStateM.bind]
    rcases Session.settles_perform now (.merge options.mergeGap) s with
      ⟨between, heq, heffect⟩ | ⟨refusal, heq⟩
    · rw [Session.perform] at heq
      -- merging does not change the status, so the session can be completed
      obtain ⟨hmerged, hbetween⟩ := heffect.merged
      rw [heq]
      exact complete_cases hbetween now (by rw [hmerge, if_pos rfl, hmerged])
    · rw [Session.perform] at heq
      rw [heq]
      exact .inr ⟨refusal, s, rfl, hs⟩

end Close

/-! ## Whole transcriptions -/

section Execute

variable {listener : Listener} {s : Session} {c : Course}

/-- Without a listener a session that is processing is completed with the segments collected, or it
is refused something and goes on processing. -/
theorem process_cases (hl : ∀ reports, listener reports = true)
    (hc : c.session.status = .processing) (options : Options) (finished : Instant)
    (utterances : List Utterance) :
    (∃ segments c', collect options 0 c.session.segments utterances = .ok segments ∧
      process options listener finished c utterances = (c', .ok ()) ∧
      CompletedWith options segments c'.session) ∨
    ∃ refusal c', process options listener finished c utterances = (c', .error refusal) ∧
      c'.session.status = .processing := by
  obtain ⟨fed, hfeed, hfed, hcollected⟩ := feed_eq_collect hl utterances 0 hc
  rw [process, hfeed]
  cases hcollect : collect options 0 c.session.segments utterances with
  | error refusal => exact .inr ⟨refusal, fed, rfl, hfed⟩
  | ok segments =>
    -- the listener never stops the feeding, so all that is collected is in the session
    rw [← hcollected segments hcollect]
    simp only [Except.map, conclude]
    rcases close_cases hfed finished with ⟨next, heq, hnext⟩ | ⟨refusal, next, heq, hnext⟩
    · rw [heq]
      exact .inl ⟨_, fed.withSession next, rfl, rfl, hnext⟩
    · rw [heq]
      exact .inr ⟨refusal, fed.withSession next, rfl, hnext⟩

/-- What fails while it is processing is marked as failed. -/
theorem status_failed (hc : c.session.status = .processing) (listener : Listener)
    (finished : Instant) (failure : Failure) :
    (failed listener finished c failure).course.session.status = .failed := by
  rw [failed, session_takeEvents, Course.withSession, Session.fail,
    if_neg (by rw [hc]; decide)]
  rfl

/-- A transcription that gives a status leaves its session in that status, and there was something
to transcribe. -/
theorem status_of_execute {options : Options} {source : Except String (List Utterance)}
    {started finished : Instant} {status : Status}
    (h : (execute options source listener started finished s).result = .ok status) :
    (execute options source listener started finished s).course.session.status = status ∧
      ∃ utterances, source = .ok utterances := by
  unfold execute at h ⊢
  cases hstart : Session.start options.recording options.model started s with
  | error refusal next =>
    rw [hstart] at h
    cases h
  | ok _ next =>
    rw [hstart] at h
    cases source with
    | error message => cases h
    | ok utterances =>
      -- past the start only a source that gives utterances leads to a status
      dsimp only at h ⊢
      split at h
      · cases h
      · cases h
        exact ⟨rfl, utterances, rfl⟩

/-- A transcription without a listener that ends completed has collected the segments of all
utterances, and has merged them if that was chosen. -/
theorem completed_of_execute (hl : ∀ reports, listener reports = true) (hs : s.status = .pending)
    {options : Options} {utterances : List Utterance} {started finished : Instant}
    (h : (execute options (.ok utterances) listener started finished s).course.session.status =
      .completed) :
    ∃ segments, collect options 0 [] utterances = .ok segments ∧
      CompletedWith options segments
        (execute options (.ok utterances) listener started finished s).course.session := by
  rw [execute] at h ⊢
  rcases Session.settles_perform started (.start options.recording options.model) s with
    ⟨begun, heq, heffect⟩ | ⟨refusal, heq⟩
  · rw [Session.perform] at heq
    rw [heq] at h ⊢
    dsimp only at h ⊢
    have hsession := session_takeEvents listener ⟨begun, #[], #[]⟩
    generalize (Course.takeEvents listener ⟨begun, #[], #[]⟩).2 = c at h hsession ⊢
    have hbegun : c.session.status = .processing ∧ c.session.segments = [] := by
      rw [hsession]
      cases heffect
      exact ⟨rfl, rfl⟩
    -- a transcription that is refused something does not end completed
    rcases process_cases hl hbegun.1 options finished utterances with
      ⟨segments, done, hcollect, hprocess, hdone⟩ | ⟨refusal, left, hprocess, hleft⟩
    · rw [hbegun.2] at hcollect
      rw [hprocess]
      refine ⟨segments, hcollect, ?_⟩
      dsimp only
      rw [session_takeEvents]
      exact ⟨hdone.status_eq, hdone.segments_eq, hdone.segments_ne_nil, hdone.exists_text⟩
    · rw [hprocess] at h
      rw [show (failed listener finished left (.refused refusal)).course.session.status = .failed
        from status_failed hleft _ _ _] at h
      contradiction
  · rw [Session.perform] at heq
    rw [heq] at h
    rw [show s.status = .completed from h] at hs
    contradiction

end Execute

end SpeechTranscript.Transcription
