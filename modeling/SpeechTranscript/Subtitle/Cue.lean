import SpeechTranscript.Segment.Basic
import SpeechTranscript.Subtitle.Timecode

/-!
# Subtitles

Segments written as cues in the SubRip and WebVTT formats. A cue is its timing line and its text,
each ended by a line break; in SubRip a line with its number comes first. A blank line stands
between cues, and after the header of WebVTT.
-/

namespace SpeechTranscript

inductive SubtitleFormat where
  | srt
  | vtt
  deriving DecidableEq, Repr

namespace SubtitleFormat

def millisMark : SubtitleFormat → Char
  | .srt => ','
  | .vtt => '.'

def time (format : SubtitleFormat) (position : Duration) : String :=
  String.ofList ((Timecode.ofDuration position).write format.millisMark)

/-- The line with start and end of a cue. -/
def timing (format : SubtitleFormat) (segment : Segment) : String :=
  format.time segment.start ++ " --> " ++ format.time segment.stop

/-- The cue of a segment, with the number it has in SubRip. -/
def cue (format : SubtitleFormat) (number : Nat) (segment : Segment) : String :=
  let body := format.timing segment ++ "\n" ++ segment.text.content ++ "\n"
  match format with
  | .srt => toString number ++ "\n" ++ body
  | .vtt => body

def cuesFrom (format : SubtitleFormat) (number : Nat) (segments : List Segment) : List String :=
  segments.mapIdx fun i segment => format.cue (number + i) segment

def header : SubtitleFormat → List String
  | .srt => []
  | .vtt => ["WEBVTT", ""]

def write (format : SubtitleFormat) (segments : List Segment) : String :=
  "\n".intercalate (format.header ++ format.cuesFrom 1 segments)

end SubtitleFormat

end SpeechTranscript
