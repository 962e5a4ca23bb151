import SpeechTranscript.InvalidValue

/-!
# Lengths of time

A `Duration` is a number of seconds from 0 to 24 hours. It measures lengths and also marks positions
on the audio timeline. Checked construction rejects everything else; arithmetic saturates at both
ends, so every operation stays inside the range.
-/

namespace SpeechTranscript

def longestSeconds : Float := 24 * 3600

/-- The slack allowed when two positions are compared, so that `2.1 - 2.0` passes for `0.1`. -/
def timeSlack : Float := 1e-9

/-- A number of seconds from 0 to 24 hours. -/
structure Duration where
  seconds : Float
  nonneg : 0 ≤ seconds
  le_longest : seconds ≤ longestSeconds
  deriving DecidableEq

namespace Duration

def zero : Duration := ⟨0, by decide +kernel, by decide +kernel⟩

def longest : Duration := ⟨longestSeconds, by decide +kernel, by decide +kernel⟩

instance : Inhabited Duration := ⟨zero⟩

/-- Two durations are equal as numbers; the sign of zero does not count. -/
instance : BEq Duration := ⟨fun a b => a.seconds == b.seconds⟩

instance : LT Duration := ⟨fun a b => a.seconds < b.seconds⟩

instance : LE Duration := ⟨fun a b => a.seconds ≤ b.seconds⟩

instance (a b : Duration) : Decidable (a < b) := inferInstanceAs (Decidable (a.seconds < b.seconds))

instance (a b : Duration) : Decidable (a ≤ b) := inferInstanceAs (Decidable (a.seconds ≤ b.seconds))

def ofSeconds (seconds : Float) : Except InvalidValue Duration :=
  if h : 0 ≤ seconds ∧ seconds ≤ longestSeconds then .ok ⟨seconds, h.1, h.2⟩
  else if seconds.isFinite && longestSeconds < seconds then .error (.durationTooLong seconds)
  else .error (.duration seconds)

def ofMillis (millis : Float) : Except InvalidValue Duration :=
  ofSeconds (millis / 1000)

/-- The nearest duration to any number of seconds. What is no number counts as zero. -/
def saturating (seconds : Float) : Duration :=
  if h : 0 ≤ seconds ∧ seconds ≤ longestSeconds then ⟨seconds, h.1, h.2⟩
  else if longestSeconds < seconds then longest
  else zero

def millis (d : Duration) : Float := d.seconds * 1000

def minutes (d : Duration) : Float := d.seconds / 60

def isZero (d : Duration) : Bool := d.seconds == 0

/-- The sum, at most 24 hours. -/
instance : Add Duration := ⟨fun a b => saturating (a.seconds + b.seconds)⟩

/-- The difference, at least zero. -/
instance : Sub Duration := ⟨fun a b => saturating (a.seconds - b.seconds)⟩

def sum (ds : List Duration) : Duration :=
  ds.foldl (· + ·) zero

def earlier (a b : Duration) : Duration :=
  if b.seconds < a.seconds then b else a

def later (a b : Duration) : Duration :=
  if a.seconds < b.seconds then b else a

def text (d : Duration) : String := Decimal.text d.seconds ++ "s"

/-- Hours, minutes and seconds as people read them, such as `1.5s`, `2m 3.0s` or `1h 2m 3.0s`. -/
def human (d : Duration) : String :=
  let s := d.seconds
  if s < 60 then Decimal.fixed 1 s ++ "s"
  else
    -- rounded apart from the minutes, so there can be 60.0 seconds
    let rest := Decimal.fixed 1 (Decimal.remainder s 60)
    if s < 3600 then
      let minutes := (s / 60).toUInt64.toNat
      s!"{minutes}m {rest}s"
    else
      let hours := (s / 3600).toUInt64.toNat
      let minutes := (Decimal.remainder s 3600 / 60).toUInt64.toNat
      s!"{hours}h {minutes}m {rest}s"

end Duration

end SpeechTranscript
