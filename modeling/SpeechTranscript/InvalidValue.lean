import SpeechTranscript.Decimal.Written

/-!
# Values that cannot be built

Lengths of time, confidences, percentages, texts and language codes are checked when they are
built. `InvalidValue` lists what can be wrong with one, and `InvalidValue.message` words it.
-/

namespace SpeechTranscript

/-- Why a value was rejected. -/
inductive InvalidValue where
  | duration (seconds : Float)
  | durationTooLong (seconds : Float)
  | confidence (value : Float)
  | progress (percent : Float)
  | textTooLong (characters : Nat)
  | language (code : String)
  deriving DecidableEq

def InvalidValue.message : InvalidValue → String
  | .duration seconds =>
    "duration must be a finite, non-negative number of seconds, got " ++ Decimal.text seconds
  | .durationTooLong seconds =>
    "duration too long: " ++ Decimal.text seconds ++ "s, maximum is 24 hours"
  | .confidence value =>
    "confidence must be between 0.0 and 1.0, got " ++ Decimal.text value
  | .progress percent =>
    "progress must be between 0 and 100, got " ++ Decimal.text percent
  | .textTooLong characters =>
    "transcription text too long: " ++ toString characters ++ " characters"
  | .language code => "invalid language code: '" ++ code ++ "'"

end SpeechTranscript
