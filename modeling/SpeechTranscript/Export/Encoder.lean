import SpeechTranscript.Json.Reader
import SpeechTranscript.Json.Writer

/-!
# Encoders

What turns a document into JSON text: once on one line, and once more over several lines. Either may
be missing in a given encoder.
-/

namespace SpeechTranscript

/-- Something that writes JSON, as far as it can. -/
structure Encoder where
  /-- The text of a value on one line. -/
  compact : Json → Option String
  /-- A JSON text written anew over several lines, with an indent. -/
  pretty : (text : String) → (indent : Nat) → Option String

namespace Encoder

/-- A JSON text written anew over several lines, with members in the order of their names. -/
def reformat (text : String) (indent : Nat) : Except Json.Fault String := do
  let value ← Json.read text.toList
  return value.canonical.pretty indent

def standard : Encoder where
  compact value := some value.canonical.compact
  pretty text indent := (reformat text indent).toOption

def compactOnly : Encoder where
  compact value := some value.canonical.compact
  pretty _ _ := none

def failing : Encoder where
  compact _ := none
  pretty _ _ := none

end Encoder

end SpeechTranscript
