import SpeechTranscript.Session.Basic

/-!
# Runs of a session

The operations on a session as commands, and what a session becomes after a run of them.
-/

namespace SpeechTranscript

inductive Command where
  | start (recording : Option Duration) (model : String)
  | add (segment : Segment)
  | addAll (batch : List Segment)
  | merge (gap : Float)
  | complete
  | fail (message code : String)
  | cancel (reason : Option String)
  | drain
  deriving DecidableEq

namespace Session

def perform (now : Instant) : Command → Change Unit
  | .start recording model => start recording model now
  | .add segment => addSegment segment
  | .addAll batch => addSegments batch
  | .merge gap => mergeAdjacent gap
  | .complete => complete now
  | .fail message code => modify (·.fail message code now)
  | .cancel reason => cancel reason now
  | .drain => modify (·.drain.2)

/-- The session that an operation leaves behind, refused or not. -/
def afterwards {α : Type} (s : Session) (change : Change α) : Session :=
  match change s with
  | .ok _ next => next
  | .error _ next => next

def after (s : Session) (step : Instant × Command) : Session :=
  s.afterwards (perform step.1 step.2)

def run (s : Session) (steps : List (Instant × Command)) : Session :=
  steps.foldl after s

@[simp] theorem run_nil (s : Session) : s.run [] = s := rfl

@[simp] theorem run_cons (s : Session) (step : Instant × Command)
    (steps : List (Instant × Command)) : s.run (step :: steps) = (s.after step).run steps := rfl

/-- A run may be stopped and taken up again. -/
theorem run_append (s : Session) (steps more : List (Instant × Command)) :
    s.run (steps ++ more) = (s.run steps).run more :=
  List.foldl_append

end Session

end SpeechTranscript
