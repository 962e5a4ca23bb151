import SpeechTranscript.Export.Encoder
import SpeechTranscript.Session.Basic

/-!
# Transcripts as JSON documents

The document holds the text, the segments with their times and confidences, and what is known of the
run: model, time and duration. Times that are not known are `null`.
-/

namespace SpeechTranscript

namespace Segment

def toJson (s : Segment) : Json :=
  .object [
    ("confidence", .float s.confidence.value),
    ("end", .float s.stop.seconds),
    ("start", .float s.start.seconds),
    ("text", .string s.text.content)]

end Segment

namespace Session

def knownOrNull : Option Float → Json
  | some x => .float x
  | none => .null

def metadata (s : Session) : Json :=
  .object [
    ("model_version", .string s.model),
    ("processed_at", knownOrNull (s.finished.map (·.unixSeconds))),
    ("processing_duration_seconds", knownOrNull (s.processingTime?.map (·.seconds)))]

/-- The document of a session, members in the order of their names. -/
def document (s : Session) : Json :=
  .object [
    ("full_text", .string ((s.finalText.map (·.content)).getD "")),
    ("language", .string s.language.code),
    ("metadata", s.metadata),
    ("overall_confidence", .float s.confidence.value),
    ("segments", .array (s.segments.map (·.toJson))),
    ("transcription_id", .string s.id)]

def emptyDocument : String := "\x7b\x7d"

def documentIndent : Nat := 2

/-- The document as text: over several lines if the encoder can, else on one line, else empty. -/
def documentText (s : Session) (encoder : Encoder) : String :=
  match encoder.compact s.document with
  | none => emptyDocument
  | some compact => (encoder.pretty compact documentIndent).getD compact

end Session

end SpeechTranscript
