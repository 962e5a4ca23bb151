import SpeechTranscript.Segment.Basic

/-!
# Segments as intervals

How two segments lie to each other in time: whether and how long they overlap, and whether the gap
between them is small.
-/

namespace SpeechTranscript.Segment

/-- Whether two segments share time; touching ends do not count. -/
def overlaps (a b : Segment) : Bool :=
  !(a.stop ≤ b.start || b.stop ≤ a.start)

def overlap (a b : Segment) : Duration :=
  let start := Duration.later a.start b.start
  let stop := Duration.earlier a.stop b.stop
  if stop.seconds ≤ start.seconds then .zero
  else .saturating (stop.seconds - start.seconds)

/-- Whether the end of one stretch lies within a number of milliseconds of the start of the
other. -/
def adjacentStretches (startA stopA startB stopB : Duration) (millis : Float) : Bool :=
  let forward := (startB.seconds - stopA.seconds).abs
  let backward := (startA.seconds - stopB.seconds).abs
  (if backward < forward then backward else forward) ≤ millis / 1000 + timeSlack

def isAdjacent (a b : Segment) (millis : Float) : Bool :=
  adjacentStretches a.start a.stop b.start b.stop millis

end SpeechTranscript.Segment
