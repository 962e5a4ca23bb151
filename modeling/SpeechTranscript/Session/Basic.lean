import SpeechTranscript.Session.Event
import SpeechTranscript.Session.Parameters
import SpeechTranscript.Time.Instant
import SpeechTranscript.Timeline

/-!
# Transcription sessions

A session is one transcription from its start to its end. It is pending, then processing while
segments come in, and ends completed, failed or cancelled. What it shows of its segments as a whole
(confidence, final text) is stored with it and brought up to date by every operation that changes
the segments. An operation that is refused gives the reason and leaves a session behind all the
same; that it is the session it was called on is a property of the operations. The time of day comes
in as an argument.
-/

namespace SpeechTranscript

structure Session where
  id : String
  audioId : String
  language : Language
  status : Status
  started : Option Instant
  finished : Option Instant
  /-- The length of the recording, if it is known. -/
  recording : Option Duration
  segments : Timeline
  /-- The confidence over all segments. -/
  confidence : Confidence
  finalText : Option Text
  /-- What went wrong, or why the session was cancelled. -/
  errorMessage : Option String
  errorCode : Option String
  model : String
  parameters : Parameters
  /-- The number of changes so far. -/
  version : Nat
  outbox : Outbox
  deriving DecidableEq

/-- An operation on a session that can be refused. A refusal gives the reason; either way a session
is left behind. -/
abbrev Change (α : Type) : Type := EStateM Refusal Session α

namespace Session

def new (id audioId : String) (language : Language) : Session where
  id
  audioId
  language
  status := .pending
  started := none
  finished := none
  recording := none
  segments := []
  confidence := .zero
  finalText := none
  errorMessage := none
  errorCode := none
  model := ""
  parameters := .empty
  version := 0
  outbox := .empty

def withParameters (s : Session) (parameters : Parameters) : Session := { s with parameters }

def withParameter (s : Session) (name value : String) : Session :=
  { s with parameters := s.parameters.insert name value }

/-! ## Views -/

def isActive (s : Session) : Bool := s.status == .processing

def isFinished (s : Session) : Bool := s.status.isFinished

def progress (s : Session) : Progress := s.segments.progress s.recording

/-- The final text once there is one, before that the formatted text so far. -/
def fullText (s : Session) : Except Refusal Text :=
  match s.finalText with
  | some text => .ok text
  | none => s.segments.fullText

def processingTime? (s : Session) : Option Duration := do
  let started ← s.started
  let finished ← s.finished
  return finished.since started

/-! ## Changes -/

/-- The session with one more change, and a report of it. -/
def record (s : Session) (what : Happening) : Session :=
  { s with outbox := s.outbox.push ⟨s.id, what⟩, version := s.version + 1 }

/-- The session with other segments, and the confidence over them. -/
def withSegments (s : Session) (segments : Timeline) : Session :=
  { s with segments, confidence := segments.confidence }

def begun (s : Session) (recording : Option Duration) (model : String) (now : Instant) : Session :=
  { s with
    status := .processing
    started := some now
    finished := none
    recording
    model
    segments := []
    confidence := .zero
    finalText := none
    errorMessage := none
    errorCode := none }.record (.started recording s.language)

def completedWith (s : Session) (text : Text) (now : Instant) : Session :=
  let done := { s with
    confidence := s.segments.confidence
    status := .completed
    finished := some now
    finalText := some text }
  -- the report tells the time up to the end that was just set
  done.record
    (.completed text done.segments.length (done.processingTime?.getD .zero) done.confidence)

def failedWith (s : Session) (message code : String) (now : Instant) : Session :=
  { s with
    status := .failed
    finished := some now
    errorMessage := some message
    errorCode := some code }.record (.failed message code)

/-- The session cancelled. A reason given before stays unless a new one is given. -/
def cancelledFor (s : Session) (reason : Option String) (now : Instant) : Session :=
  { s with
    status := .cancelled
    finished := some now
    errorMessage := reason.or s.errorMessage }.record (.cancelled reason)

/-- Refuses an operation unless the session has the status it needs. -/
def require (status : Status) (operation : Operation) : Change Unit := do
  let s ← get
  if s.status = status then pure () else throw (.wrongStatus operation s.status)

def start (recording : Option Duration) (model : String) (now : Instant) : Change Unit := do
  require .pending .start
  modify (·.begun recording model now)

def addSegment (segment : Segment) : Change Unit := do
  require .processing .addSegment
  let s ← get
  let segments ← MonadExcept.ofExcept (s.segments.accept segment)
  modify (·.withSegments segments)
  modify (·.record (.segmentProcessed segment.id (segments.progress s.recording)))

/-- Puts a batch of segments on a timeline, one after the other, and notes what is to be reported of
each. -/
def stage (recording : Option Duration) (timeline : Timeline) :
    List Segment → Except Refusal (Timeline × List Happening)
  | [] => .ok (timeline, [])
  | segment :: rest => do
    let staged ← timeline.accept segment
    let (segments, reports) ← stage recording staged rest
    return (segments, .segmentProcessed segment.id (staged.progress recording) :: reports)

/-- Adds a batch of segments as one unit: all of them or none. -/
def addSegments (batch : List Segment) : Change Unit := do
  require .processing .addSegment
  let s ← get
  let (segments, reports) ← MonadExcept.ofExcept (stage s.recording s.segments batch)
  modify (·.withSegments segments)
  reports.forM fun report => modify (·.record report)

/-- Merges segments within a gap in milliseconds of each other. Nothing changes if there are fewer
than two. -/
def mergeAdjacent (gap : Float) : Change Unit := do
  require .processing .mergeSegments
  let s ← get
  if s.segments.length < 2 then pure ()
  else
    let segments ← MonadExcept.ofExcept (s.segments.mergeAdjacent gap)
    modify (·.withSegments segments)
    -- a merge counts as a change, but nothing is reported of it
    modify fun s => { s with version := s.version + 1 }

def complete (now : Instant) : Change Unit := do
  require .processing .complete
  let s ← get
  if s.segments.isEmpty then throw .noSegments
  else
    let text ← MonadExcept.ofExcept s.segments.fullText
    modify (·.completedWith text now)

/-- Marks a session as failed. One that is completed or failed already stays as it is. -/
def fail (s : Session) (message code : String) (now : Instant) : Session :=
  if s.status.isTerminal then s else s.failedWith message code now

/-- Cancels a session that is neither completed nor failed, again if it is cancelled already. -/
def cancel (reason : Option String) (now : Instant) : Change Unit := do
  let s ← get
  if s.status.isTerminal then throw (.wrongStatus .cancel s.status)
  else modify (·.cancelledFor reason now)

/-- The reports nobody has taken yet, and the session without them. -/
def drain (s : Session) : List Event × Session :=
  let (events, outbox) := s.outbox.drain
  (events, { s with outbox })

/-! ## Quality -/

def longestGoodSegment : Float := 30

/-- Whether a segment is neither too long nor too short for its text. -/
def goodLength (segment : Segment) : Bool :=
  let seconds := segment.duration.seconds
  seconds ≤ longestGoodSegment &&
    !(seconds + timeSlack < shortestSpeech && !segment.isEmpty)

/-- Whether a session is completed, reliable and not empty, with segments of a good length. -/
def passesQuality (s : Session) : Bool :=
  s.status == .completed && s.confidence.isReliable &&
    s.finalText.any (fun text => !text.isEmpty && 1 ≤ text.wordCount) &&
    !s.segments.isEmpty && s.segments.all goodLength

end Session

end SpeechTranscript
