import SpeechTranscript.Bisection
import SpeechTranscript.Progress
import SpeechTranscript.Segment.Merge

/-!
# The timeline of a transcription

The segments of one recording, earliest start first. A new segment is accepted if it shares at most
a tenth of a second with every segment that is there, and takes its place before all segments that
do not start earlier. Everything a transcription reports about its segments as a whole (confidence,
progress, text, span) is computed from the timeline.
-/

namespace SpeechTranscript

/-- Segments in the order of their starts. -/
abbrev Timeline := List Segment

namespace Timeline

def overlapTolerance : Float := 0.1

def conflicts (segment other : Segment) : Bool :=
  overlapTolerance + timeSlack < (segment.overlap other).seconds

/-- The first segment that a new one conflicts with. -/
def conflict? (timeline : Timeline) (segment : Segment) : Option Segment :=
  timeline.find? (conflicts segment)

/-- The timeline with a segment put where the segments that start earlier end. -/
def place (timeline : Timeline) (segment : Segment) : Timeline :=
  timeline.insertIdx (partitionPoint (·.start < segment.start) timeline) segment

/-- The timeline with a new segment, unless that conflicts with one that is there. -/
def accept (timeline : Timeline) (segment : Segment) : Except Refusal Timeline :=
  match timeline.conflict? segment with
  | some other => .error (.overlap segment.id other.id (segment.overlap other).millis)
  | none => .ok (timeline.place segment)

section Accept

variable {timeline next : Timeline} {segment : Segment}

theorem conflict?_eq_none_iff :
    timeline.conflict? segment = none ↔ ∀ other ∈ timeline, conflicts segment other = false := by
  simp [conflict?, List.find?_eq_none]

theorem accept_eq_ok_iff :
    timeline.accept segment = .ok next ↔
      (∀ other ∈ timeline, conflicts segment other = false) ∧ next = timeline.place segment := by
  rw [← conflict?_eq_none_iff, accept]
  cases timeline.conflict? segment with
  | none => simp [eq_comm]
  | some other => simp

/-- Placing a segment adds it and changes nothing else. -/
theorem place_perm : (timeline.place segment).Perm (segment :: timeline) :=
  List.perm_insertIdx segment timeline partitionPoint_le_length

theorem mem_place {other : Segment} :
    other ∈ timeline.place segment ↔ other = segment ∨ other ∈ timeline := by
  rw [place_perm.mem_iff, List.mem_cons]

theorem length_place : (timeline.place segment).length = timeline.length + 1 :=
  place_perm.length_eq

end Accept

/-- Folds each segment into the one before it while the two lie within a gap in milliseconds. -/
def foldAdjacent (gap : Float) (current : Segment) : Timeline → Except Refusal Timeline
  | [] => .ok [current]
  | next :: rest =>
    if current.isAdjacent next gap then do
      let merged ← current.mergeWithin next gap
      foldAdjacent gap merged rest
    else do
      let more ← foldAdjacent gap next rest
      return current :: more

def mergeAdjacent (gap : Float) : Timeline → Except Refusal Timeline
  | [] => .ok []
  | first :: rest => foldAdjacent gap first rest

/-- The mean confidence weighted by length; zero if there is no length. -/
def confidence (timeline : Timeline) : Confidence :=
  let (weighted, total) := timeline.foldl (fun (weighted, total) s =>
    let seconds := s.duration.seconds
    (weighted + s.confidence.value * seconds, total + seconds)) ((0, 0) : Float × Float)
  -- what is no number passes the clamp and is no score either
  if 0 < total then ((Confidence.ofValue (Confidence.clamp (weighted / total))).toOption).getD .zero
  else .zero

/-- The seconds covered by segments, one added after the other. A sum of nothing is `-0`, which
changes no number it is added to. -/
def coveredSeconds (timeline : Timeline) : Float :=
  timeline.foldl (fun sum s => sum + s.duration.seconds) (-0.0)

/-- The share of progress, in percent, that a segment counts for when the length of the recording
is unknown. -/
def percentPerSegment : Float := 10

/-- Progress by the time covered of a recording of known length, else by the number of segments. -/
def progress (timeline : Timeline) (recording : Option Duration) : Progress :=
  -- a recording of no length tells as little as one of unknown length
  match recording.filter (!·.isZero) with
  | some total => .ofRatio (timeline.coveredSeconds / total.seconds)
  | none =>
    let estimate := Float.ofNat timeline.length * percentPerSegment
    .ofRatio ((if 100 < estimate then 100 else estimate) / 100)

/-- The texts that are there, with spaces between. -/
def joinedTexts (timeline : Timeline) : String :=
  " ".intercalate ((timeline.filter (!·.isEmpty)).map (·.text.content))

def fullText (timeline : Timeline) : Except Refusal Text :=
  if timeline.isEmpty then .ok .empty
  else do
    let text ← orRefuse (Text.finalized timeline.joinedTexts)
    return text.formatted

/-- From the start of the first segment to the latest end. -/
def span? : Timeline → Option Duration
  | [] => none
  | first :: rest =>
    some (rest.foldl (fun latest s => Duration.later latest s.stop) first.stop - first.start)

end Timeline

end SpeechTranscript
