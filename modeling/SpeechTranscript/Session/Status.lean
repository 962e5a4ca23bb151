/-!
# Session status

Where a transcription stands, and the operations that some of these standings refuse.
-/

namespace SpeechTranscript

inductive Status where
  | pending
  | processing
  | completed
  | failed
  | cancelled
  deriving DecidableEq, Repr, Inhabited

namespace Status

/-- A result that nothing can change any more. -/
def isTerminal : Status → Bool
  | .completed | .failed => true
  | _ => false

def isFinished : Status → Bool
  | .completed | .failed | .cancelled => true
  | _ => false

def text : Status → String
  | .pending => "pending"
  | .processing => "processing"
  | .completed => "completed"
  | .failed => "failed"
  | .cancelled => "cancelled"

end Status

inductive Operation where
  | start
  | addSegment
  | mergeSegments
  | complete
  | cancel
  | exportAs
  deriving DecidableEq, Repr

def Operation.text : Operation → String
  | .start => "start"
  | .addSegment => "add segment"
  | .mergeSegments => "merge segments"
  | .complete => "complete"
  | .cancel => "cancel"
  | .exportAs => "export"

end SpeechTranscript
