import SpeechTranscript.Recognition.Utterance
import SpeechTranscript.Transcription.Options

/-!
# Transcriptions

A transcription takes a pending session through a recognizer's output: it starts the session, adds a
segment for every utterance, merges what lies close together, and completes the session. After every
step the session's events are taken. For every accepted segment a listener hears of the progress and
may stop the transcription, which cancels the session; anything that goes wrong fails the session.
-/

namespace SpeechTranscript

/-- Decides whether to go on. It is given all progress reported so far, oldest first, down to the
report at hand. -/
abbrev Listener : Type := Array Progress → Bool

/-- A transcription under way: the session, the events taken from it and the progress reported, both
oldest first. -/
structure Course where
  session : Session
  events : Array Event
  reports : Array Progress
  deriving DecidableEq

/-- A transcription that has ended. -/
structure Outcome where
  course : Course
  result : Except Failure Status

namespace Course

/-- Reports the progress in an event, if there is any, and tells whether to go on. -/
def report (listener : Listener) (state : Bool × Course) (event : Event) : Bool × Course :=
  match event.what with
  | .segmentProcessed _ progress =>
    let reports := state.2.reports.push progress
    (state.1 && listener reports, { state.2 with reports })
  | _ => state

/-- Takes the events of the session, reports the progress in them, and tells whether to go on. -/
def takeEvents (listener : Listener) (c : Course) : Bool × Course :=
  let (events, session) := c.session.drain
  events.foldl (report listener) (true, { c with session, events := c.events ++ events })

def withSession (c : Course) (session : Session) : Course := { c with session }

end Course

namespace Transcription

/-- Whether a refused segment is left out instead of ending the transcription. -/
def skips (options : Options) : Refusal → Bool
  | .overlap .. => options.skipOverlapping
  | _ => false

/-- Adds the segments of utterances, the first of which is numbered `number`. The result tells
whether all are through or the listener has stopped the transcription. -/
def feed (options : Options) (listener : Listener) (number : Nat) (c : Course) :
    List Utterance → Course × Except Refusal Bool
  | [] => (c, .ok true)
  | utterance :: rest =>
    match utterance.toSegment (UInt32.ofNat number) with
    | .error refusal => (c, .error refusal)
    | .ok segment =>
      match Session.addSegment segment c.session with
      | .error refusal session =>
        let c := c.withSession session
        -- the numbers go on over what is left out
        if skips options refusal then feed options listener (number + 1) c rest
        else (c, .error refusal)
      | .ok () session =>
        let (goOn, c) := (c.withSession session).takeEvents listener
        if goOn then feed options listener (number + 1) c rest else (c, .ok false)

def stopReason : String := "cancelled by progress callback"

/-- Merges, if that is chosen, and completes. What was merged stays so even if the session cannot be
completed. -/
def close (options : Options) (now : Instant) : Change Unit := do
  if options.mergeAdjacent then Session.mergeAdjacent options.mergeGap
  Session.complete now

/-- The course with the session that an operation leaves behind, and why the operation was refused
if it was. -/
def conclude (c : Course) (change : Change Unit) : Course × Except Refusal Unit :=
  match change c.session with
  | .ok () session => (c.withSession session, .ok ())
  | .error refusal session => (c.withSession session, .error refusal)

/-- Takes a session that is processing through a recognizer's output to its end. -/
def process (options : Options) (listener : Listener) (now : Instant) (c : Course)
    (utterances : List Utterance) : Course × Except Refusal Unit :=
  match feed options listener 0 c utterances with
  | (c, .error refusal) => (c, .error refusal)
  | (c, .ok false) => conclude c (Session.cancel (some stopReason) now)
  | (c, .ok true) => conclude c (close options now)

def failed (listener : Listener) (now : Instant) (c : Course) (failure : Failure) : Outcome where
  course :=
    ((c.withSession (c.session.fail failure.message failure.code now)).takeEvents listener).2
  result := .error failure

/-- A whole transcription of what a source gives, or of its failure to give anything. The session is
started at one time of day and ends at another. -/
def execute (options : Options) (source : Except String (List Utterance)) (listener : Listener)
    (started finished : Instant) (s : Session) : Outcome :=
  match Session.start options.recording options.model started s with
  | .error refusal session => { course := ⟨session, #[], #[]⟩, result := .error (.refused refusal) }
  | .ok () session =>
    -- the session has started even if there is no output to be had
    let c := (Course.takeEvents listener ⟨session, #[], #[]⟩).2
    match source with
    | .error message => failed listener finished c (.source message)
    | .ok utterances =>
      match process options listener finished c utterances with
      | (c, .error refusal) => failed listener finished c (.refused refusal)
      | (c, .ok ()) =>
        let c := (c.takeEvents listener).2
        { course := c, result := .ok c.session.status }

end Transcription

end SpeechTranscript
