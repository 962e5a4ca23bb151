import SpeechTranscript.Segment.Basic

/-!
# Recognizer output

What a recognizer reports of one stretch of speech, before anything is checked, and the segment it
becomes.
-/

namespace SpeechTranscript

structure Utterance where
  start : Float
  stop : Float
  text : String
  confidence : Float
  speaker : Option String
  language : Option String
  sequence : Option UInt32
  deriving DecidableEq

namespace Utterance

def assumedConfidence : Float := 1

/-- The checked segment of an utterance. A recognizer that does not number its output gets the
number `fallback`. -/
def toSegment (u : Utterance) (fallback : UInt32) : Except Refusal Segment := do
  let sequence := u.sequence.getD fallback
  let start ← orRefuse (Duration.ofSeconds u.start)
  let stop ← orRefuse (Duration.ofSeconds u.stop)
  let text ← orRefuse (Text.finalized (Text.trimmed u.text))
  let confidence ← orRefuse (Confidence.ofValue u.confidence)
  let segment ← Segment.build (Segment.numberedId sequence) start stop text confidence sequence
  return { segment with speaker := u.speaker, language := u.language }

end Utterance

end SpeechTranscript
