import SpeechTranscript.Export.Document
import SpeechTranscript.Export.Format
import SpeechTranscript.Subtitle.Cue

/-!
# Exports

A completed session written in one of the export formats.
-/

namespace SpeechTranscript.Session

/-- The plain text: the final text, if there is one. -/
def plainText (s : Session) : String := (s.finalText.map (·.content)).getD ""

def exportAs (s : Session) (format : ExportFormat) (encoder : Option Encoder) :
    Except Refusal String :=
  if s.status = .completed then
    match format with
    | .txt => .ok s.plainText
    | .srt => .ok (SubtitleFormat.srt.write s.segments)
    | .vtt => .ok (SubtitleFormat.vtt.write s.segments)
    | .json =>
      match encoder with
      | some encoder => .ok (s.documentText encoder)
      | none => .error .noEncoder
  else .error (.wrongStatus .exportAs s.status)

end SpeechTranscript.Session
