import SpeechTranscript.Session.Basic

/-!
# Options of a transcription

What can be chosen for a transcription, and why one can fail.
-/

namespace SpeechTranscript

/-- What can be chosen for a transcription. -/
structure Options where
  recording : Option Duration
  model : String
  /-- Whether segments that lie close together are merged in the end. -/
  mergeAdjacent : Bool
  /-- How close, in milliseconds. -/
  mergeGap : Float
  /-- Whether a segment that conflicts with an earlier one is left out instead of ending the
  transcription. -/
  skipOverlapping : Bool
  parameters : Parameters
  deriving DecidableEq

namespace Options

def standardMergeGap : Float := 500

def standard : Options where
  recording := none
  model := "unknown"
  mergeAdjacent := true
  mergeGap := standardMergeGap
  skipOverlapping := false
  parameters := .empty

def newSession (options : Options) (id audioId : String) (language : Language) : Session :=
  (Session.new id audioId language).withParameters options.parameters

end Options

inductive Failure where
  | source (message : String)
  | refused (refusal : Refusal)
  deriving DecidableEq

namespace Failure

def message : Failure → String
  | .source message => message
  | .refused refusal => refusal.message

def code : Failure → String
  | .source _ => "TRANSCRIPTION_ERROR"
  | .refused refusal => refusal.code

end Failure

end SpeechTranscript
