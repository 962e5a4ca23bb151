import SpeechTranscript.Segment.Basic

/-!
# Splitting a segment

A segment is split at a point in time. The text is cut in proportion to the time before the point,
and the cut moves back to a blank if one is near. A half too short to hold text gives all of it to
the other half.
-/

namespace SpeechTranscript.Segment

/-- The cut moves back only to a blank past this share of the first part. -/
def snapShare : Float := 0.7

def shortestSpokenHalf : Float := shortestSpeech - timeSlack

/-- The place of the last blank among the first `n` characters. -/
def lastBlank? (cs : List Char) (n : Nat) : Option Nat :=
  let after := (cs.take n).reverse.takeWhile (!Text.isBlank ·)
  let before := min n cs.length - after.length
  if before = 0 then none else some (before - 1)

theorem lt_of_lastBlank? {cs : List Char} {n blank : Nat} (h : lastBlank? cs n = some blank) :
    blank < n := by
  simp only [lastBlank?] at h
  split at h
  · contradiction
  · rw [Option.some.injEq] at h
    omega

/-- A cut moved back to the last blank before it, if that is near enough. -/
def snap (cs : List Char) (cut : Nat) : Nat :=
  match lastBlank? cs cut with
  | some blank => if Float.ofNat cut * snapShare < Float.ofNat blank then blank else cut
  | none => cut

theorem snap_le (cs : List Char) (cut : Nat) : snap cs cut ≤ cut := by
  unfold snap
  split
  · rename_i blank found
    split
    · exact Nat.le_of_lt (lt_of_lastBlank? found)
    · exact Nat.le_refl cut
  · exact Nat.le_refl cut

/-- The number of characters that go with the share of the time before the point. -/
def proportionalCut (s : Segment) (point : Duration) : Nat :=
  let share := (point.seconds - s.start.seconds) / s.duration.seconds
  -- rounds down; what is no number or below zero gives no characters
  (Float.ofNat s.text.charCount * share).toUInt64.toNat

/-- How many characters go to the first half. -/
def cutAt (s : Segment) (point : Duration) : Nat :=
  if (point - s.start).seconds < shortestSpokenHalf then 0
  else if (s.stop - point).seconds < shortestSpokenHalf then s.text.charCount
  else snap s.text.chars (s.proportionalCut point)

def nextSequence (n : UInt32) : UInt32 :=
  -- the largest number has none after it
  if n + 1 = 0 then n else n + 1

def split (s : Segment) (point : Duration) : Except Refusal (Segment × Segment) := do
  if s.start < point ∧ point < s.stop then
    let cut := s.cutAt point
    let head := s.text.chars.take cut
    let tail := s.text.chars.drop cut
    let headText ← orRefuse (Text.finalized (String.ofList (Text.trim head)))
    let first ← build (s.id ++ "_1") s.start point headText s.confidence s.sequence
    let tailText ← orRefuse (Text.finalized (String.ofList (Text.trim tail)))
    let second ← build (s.id ++ "_2") point s.stop tailText s.confidence
      (nextSequence s.sequence)
    return (first.voicedAs s, second.voicedAs s)
  else .error (.splitOutside point s.start s.stop)

end SpeechTranscript.Segment
