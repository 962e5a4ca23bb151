import SpeechTranscript.Proofs.Export.Document
import SpeechTranscript.Proofs.Transcription.Feeding

/-!
# Transcriptions as documents

The scores of segments at large need not be numbers, but a recognizer's scores are checked before they
come into a session. So the session that a transcription leaves behind has proper scores only. Its
times are those at which the transcription has started and ended, and if it is completed, its JSON
export reads back.

* `Keeps`, `kept_execute`: what every command keeps, a transcription keeps.
* `scored_execute`: the scores in the session that a transcription leaves behind.
* `readsBack_execute`: the JSON export of a completed transcription.
-/

namespace SpeechTranscript

/-- A segment made of an utterance has a proper score: it went through checked construction. -/
theorem Utterance.proper_toSegment {utterance : Utterance} {fallback : UInt32} {segment : Segment}
    (h : utterance.toSegment fallback = .ok segment) : segment.confidence.Proper := by
  obtain ⟨start, -, h⟩ := bind_eq_ok_iff.1 h
  obtain ⟨stop, -, h⟩ := bind_eq_ok_iff.1 h
  obtain ⟨text, -, h⟩ := bind_eq_ok_iff.1 h
  obtain ⟨confidence, hconfidence, h⟩ := bind_eq_ok_iff.1 h
  obtain ⟨built, hbuild, h⟩ := bind_eq_ok_iff.1 h
  cases h
  have hbuilt : built.confidence = confidence := Segment.confidence_of_build hbuild
  show built.confidence.Proper
  rw [hbuilt]
  exact (Confidence.ofValue_eq_ok_iff.1 (orRefuse_eq_ok_iff.1 hconfidence)).2

namespace Transcription

open Session

/-! ## What every command keeps

A transcription changes its session by commands only, those of its start at one time and all others
at another. So an invariant of sessions need not be followed through the feeding, the closing and the
three ways to end: it is enough that no single command breaks it. -/

/-- Every command given at this time keeps a property of sessions, also one that is refused. -/
def Keeps (P : Session → Prop) (now : Instant) : Prop :=
  ∀ ⦃s : Session⦄ (command : Command), P s → P (s.after (now, command))

section Keeps

variable {P : Session → Prop} {started finished : Instant} {c : Course} {s : Session}

/-- Taking the events of a session is a command as well. -/
theorem Keeps.takeEvents (h : Keeps P finished) (listener : Listener) (hc : P c.session) :
    P (c.takeEvents listener).2.session := by
  rw [session_takeEvents]
  exact h .drain hc

/-- Feeding keeps what adding a segment and taking events keep. Induction on the utterances, for
every course, since each of them may change it. -/
theorem Keeps.feed (h : Keeps P finished) (options : Options) (listener : Listener) (number : ℕ)
    (utterances : List Utterance) (hc : P c.session) :
    P (Transcription.feed options listener number c utterances).1.session := by
  induction utterances generalizing number c with
  | nil => exact hc
  | cons utterance rest ih =>
    rw [Transcription.feed]
    cases utterance.toSegment (UInt32.ofNat number) with
    | error refusal => exact hc
    | ok segment =>
      -- whatever becomes of the segment, the command keeps the property
      have hadded := h (.add segment) hc
      rw [after, afterwards, perform] at hadded
      dsimp only
      cases hadd : addSegment segment c.session with
      | ok _ next =>
        rw [hadd] at hadded
        have htaken : P ((c.withSession next).takeEvents listener).2.session :=
          h.takeEvents listener hadded
        dsimp only
        split
        · exact ih (number + 1) htaken
        · exact htaken
      | error refusal next =>
        rw [hadd] at hadded
        dsimp only
        split
        · exact ih (number + 1) hadded
        · exact hadded

/-- Closing keeps what merging and completing keep. -/
theorem Keeps.close (h : Keeps P finished) (options : Options) (hs : P s) :
    P (s.afterwards (Transcription.close options finished)) := by
  cases hmerge : options.mergeAdjacent with
  | false =>
    rw [afterwards, close_of_not_merge hmerge]
    exact h .complete hs
  | true =>
    have hmerged := h (.merge options.mergeGap) hs
    rw [after, afterwards, perform] at hmerged
    rw [afterwards, close_of_merge hmerge, EStateM.bind]
    cases hbetween : Session.mergeAdjacent options.mergeGap s with
    | ok _ between =>
      rw [hbetween] at hmerged
      exact h .complete hmerged
    | error refusal between =>
      rw [hbetween] at hmerged
      exact hmerged

/-- Whether all utterances are through, the listener has stopped the feeding or something was
refused. -/
theorem Keeps.process (h : Keeps P finished) (options : Options) (listener : Listener)
    (utterances : List Utterance) (hc : P c.session) :
    P (Transcription.process options listener finished c utterances).1.session := by
  have hfed := h.feed options listener 0 utterances hc
  rw [Transcription.process]
  generalize Transcription.feed options listener 0 c utterances = fed at hfed
  obtain ⟨fed, result⟩ := fed
  cases result with
  | error refusal => exact hfed
  | ok goesOn =>
    cases goesOn with
    | false =>
      dsimp only
      rw [conclude_fst]
      exact h (.cancel (some stopReason)) hfed
    | true =>
      dsimp only
      rw [conclude_fst]
      exact h.close options hfed

/-- Failing is a command, and taking the events after it is another. -/
theorem Keeps.failed (h : Keeps P finished) (listener : Listener) (failure : Failure)
    (hc : P c.session) :
    P (Transcription.failed listener finished c failure).course.session :=
  h.takeEvents listener (h (.fail failure.message failure.code) hc)

/-- What every command keeps at the two times of a transcription, the transcription keeps. -/
theorem kept_execute (hstarted : Keeps P started) (hfinished : Keeps P finished) (hs : P s)
    (options : Options) (source : Except String (List Utterance)) (listener : Listener) :
    P (execute options source listener started finished s).course.session := by
  have hbegun := hstarted (.start options.recording options.model) hs
  rw [after, afterwards, perform] at hbegun
  rw [execute]
  cases hstart : Session.start options.recording options.model started s with
  | error refusal next =>
    rw [hstart] at hbegun
    exact hbegun
  | ok _ next =>
    rw [hstart] at hbegun
    have htaken : P (Course.takeEvents listener ⟨next, #[], #[]⟩).2.session :=
      hstarted.takeEvents listener hbegun
    dsimp only
    generalize (Course.takeEvents listener ⟨next, #[], #[]⟩).2 = c at htaken
    cases source with
    | error message => exact hfinished.failed listener _ htaken
    | ok utterances =>
      have hprocessed := hfinished.process options listener utterances htaken
      dsimp only
      -- a refusal on the way makes the transcription fail, which is one more command
      generalize Transcription.process options listener finished c utterances = processed
        at hprocessed
      obtain ⟨last, result⟩ := processed
      cases result with
      | error refusal => exact hfinished.failed listener _ hprocessed
      | ok => exact hfinished.takeEvents listener hprocessed

end Keeps

/-! ## Scores and times -/

section Execute

variable {s : Session} {reason : Option String} {started finished : Instant}

/-- All scores in the session that a transcription leaves behind are proper: those of the segments
that its utterances have become are, and merging them spoils none. -/
theorem scored_execute (hs : s.status = .pending) (options : Options)
    (utterances : List Utterance) (listener : Listener) (started finished : Instant) :
    (execute options (.ok utterances) listener started finished s).course.session.segments.Scored := by
  obtain ⟨taken, added, timeline, htaken, hperm, hleft⟩ :=
    exists_taken_of_execute hs options utterances listener started finished
  have hadded : Timeline.Scored added :=
    (Timeline.forall_mem_iff_of_forall₂ (p := fun _ => True) htaken.segments (fun _ _ => trivial)
      fun hmade _ => iff_of_true trivial (Utterance.proper_toSegment hmade)).1 fun _ _ => trivial
  have htimeline : timeline.Scored := (Timeline.scored_congr hperm).2 hadded
  -- the session holds what was added, or what merging has made of it
  rcases hleft with hsame | ⟨-, hmerged⟩
  · rw [hsame]
    exact htimeline
  · exact (Timeline.scored_mergeAdjacent_iff (fun s hs => .inl (htimeline s hs)) hmerged).2 htimeline

/-- A completed transcription can be exported as JSON, and the export reads back: one utterance for
each segment, and the whole document. It has to start and end at times that the calendar has. -/
theorem readsBack_execute (hs : s.status = .pending) (hconsistent : Consistent reason s)
    (hcalendar : OnCalendar s) (hstarted : started.OnCalendar) (hfinished : finished.OnCalendar)
    (options : Options) (source : Except String (List Utterance)) (listener : Listener)
    (h : (execute options source listener started finished s).result = .ok .completed) :
    ∃ text, (execute options source listener started finished s).course.session.exportAs .json
        (some .standard) = .ok text ∧
      ReadsBack (execute options source listener started finished s).course.session text := by
  obtain ⟨hcompleted, utterances, rfl⟩ := status_of_execute h
  have htimes : OnCalendar
      (execute options (.ok utterances) listener started finished s).course.session :=
    kept_execute (fun _ command hs => hs.after hstarted command)
      (fun _ command hs => hs.after hfinished command) hcalendar options _ listener
  have hkept (now : Instant) : Keeps (fun s => ∃ reason, Consistent reason s) now :=
    fun _ command ⟨_, hs⟩ => hs.exists_run [(now, command)]
  obtain ⟨_, hlast⟩ :=
    kept_execute (hkept started) (hkept finished) ⟨reason, hconsistent⟩ options (.ok utterances)
      listener
  have hscored := scored_execute hs options utterances listener started finished
  refine ⟨_, by rw [exportAs, if_pos hcompleted], ?_⟩
  exact (exported_documentText htimes hlast hcompleted).readsBack_iff.2
    fun segment hsegment => (hscored segment hsegment).isFinite

end Execute

end Transcription

end SpeechTranscript
