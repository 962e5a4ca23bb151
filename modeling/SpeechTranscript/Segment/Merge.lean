import SpeechTranscript.Segment.Interval

/-!
# Merging two segments

Two segments that overlap or lie close to each other become one. It covers both. Text, speaker and
language come from the one with the lower number first, and the confidence is the mean weighted by
length.
-/

namespace SpeechTranscript.Segment

def adjacencyGap : Float := 100

def mergeable (a b : Segment) (gap : Float) : Bool :=
  a.overlaps b || a.isAdjacent b gap

/-- The two segments in the order of their numbers; equal numbers keep their order. -/
def inOrder (a b : Segment) : Segment × Segment :=
  if a.sequence ≤ b.sequence then (a, b) else (b, a)

/-- Two texts with a space between, blanks around them removed. -/
def joinTexts (first second : Text) : String :=
  Text.trimmed (first.content ++ " " ++ second.content)

/-- One segment from two that overlap or lie within a gap in milliseconds. -/
def mergeWithin (a b : Segment) (gap : Float) : Except Refusal Segment := do
  if a.mergeable b gap then
    let (lead, tail) := a.inOrder b
    let text ← orRefuse (Text.finalized (joinTexts lead.text tail.text))
    let merged ← build (a.id ++ "_" ++ b.id) (Duration.earlier a.start b.start)
      (Duration.later a.stop b.stop) text
      (a.confidence.weighted a.duration.seconds b.confidence b.duration.seconds) lead.sequence
    return merged.voicedAs lead
  else .error (.notMergeable a.id b.id)

/-- One segment from two that overlap or are adjacent. -/
def merge (a b : Segment) : Except Refusal Segment :=
  a.mergeWithin b adjacencyGap

end SpeechTranscript.Segment
