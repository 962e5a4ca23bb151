import SpeechTranscript.Confidence
import SpeechTranscript.Refusal
import SpeechTranscript.Text.Basic

/-!
# Segments

A segment is a stretch of the recording with what was said in it. It starts before it ends, and a
stretch shorter than a tenth of a second holds no text.
-/

namespace SpeechTranscript

def shortestSpeech : Float := 0.1

/-- Whether the stretch between two positions is too short to hold text. -/
def tooShortForSpeech (start stop : Duration) : Bool :=
  stop.seconds - start.seconds + timeSlack < shortestSpeech

/-- A stretch of the recording with what was said in it. -/
structure Segment where
  id : String
  start : Duration
  stop : Duration
  text : Text
  confidence : Confidence
  sequence : UInt32
  speaker : Option String
  language : Option String
  start_lt_stop : start < stop
  blank_of_short : tooShortForSpeech start stop = true → text.isEmpty = true
  deriving DecidableEq

namespace Segment

instance : BEq Segment := ⟨fun a b =>
  a.id == b.id && a.start == b.start && a.stop == b.stop && a.text == b.text &&
    a.confidence == b.confidence && a.speaker == b.speaker && a.language == b.language &&
    a.sequence == b.sequence⟩

def numberedId (sequence : UInt32) : String :=
  "segment_" ++ toString sequence.toNat

/-- A segment without speaker and language, if its stretch is one that can hold its text. -/
def build (id : String) (start stop : Duration) (text : Text) (confidence : Confidence)
    (sequence : UInt32) : Except Refusal Segment :=
  if order : start < stop then
    if room : tooShortForSpeech start stop = true → text.isEmpty = true then
      .ok {
        id, start, stop, text, confidence, sequence
        speaker := none
        language := none
        start_lt_stop := order
        blank_of_short := room }
    else .error (.segmentTooShort (stop.seconds - start.seconds))
  else .error (.startNotBeforeEnd start stop)

/-- A segment with final text and full confidence, named by its number. -/
def simple (start stop : Float) (content : String) (sequence : UInt32) :
    Except Refusal Segment := do
  let start ← orRefuse (Duration.ofSeconds start)
  let stop ← orRefuse (Duration.ofSeconds stop)
  let text ← orRefuse (Text.finalized content)
  build (numberedId sequence) start stop text .certain sequence

def withSpeaker (s : Segment) (speaker : String) : Segment := { s with speaker := some speaker }

def withLanguage (s : Segment) (language : String) : Segment :=
  { s with language := some language }

/-- The same segment with the speaker and the language of another. -/
def voicedAs (s other : Segment) : Segment :=
  { s with speaker := other.speaker, language := other.language }

def duration (s : Segment) : Duration := s.stop - s.start

def isEmpty (s : Segment) : Bool := s.text.isEmpty

/-- Confidence that can be relied on, in text that is there. -/
def isReliable (s : Segment) : Bool := s.confidence.isReliable && !s.isEmpty

def speakingRate (s : Segment) : Float :=
  let seconds := s.duration.seconds
  if seconds ≤ 0 then 0 else Float.ofNat s.text.wordCount / seconds * 60

end Segment

end SpeechTranscript
