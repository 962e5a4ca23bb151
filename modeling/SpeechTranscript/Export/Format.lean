import SpeechTranscript.Refusal
import SpeechTranscript.Text.Blank

/-!
# Export formats

The formats a completed transcription is written in, and how their names are read.
-/

namespace SpeechTranscript

inductive ExportFormat where
  | txt
  | srt
  | vtt
  | json
  deriving DecidableEq, Repr

namespace ExportFormat

def all : List ExportFormat := [.txt, .srt, .vtt, .json]

/-- The file extension of a format, which is also its name. -/
def extension : ExportFormat → String
  | .txt => "txt"
  | .srt => "srt"
  | .vtt => "vtt"
  | .json => "json"

/-- The format with a name, in any case of ASCII letters. Blanks around the name and dots before it
do not count. -/
def read? (name : String) : Option ExportFormat :=
  let wanted := ((Text.trim name.toList).dropWhile (· == '.')).map Char.toLower
  all.find? fun format => format.extension.toList == wanted

def ofName (name : String) : Except Refusal ExportFormat :=
  match read? name with
  | some format => .ok format
  | none => .error (.unknownFormat name)

end ExportFormat

end SpeechTranscript
