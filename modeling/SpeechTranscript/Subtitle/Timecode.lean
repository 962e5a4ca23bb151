import SpeechTranscript.Decimal.Written
import SpeechTranscript.Time.Duration

/-!
# Timecodes

A position in a subtitle file, in hours, minutes, seconds and milliseconds.
-/

namespace SpeechTranscript

structure Timecode where
  hours : Nat
  minutes : Nat
  seconds : Nat
  millis : Nat
  deriving DecidableEq, Repr

namespace Timecode

/-- The timecode of a number of milliseconds. -/
def ofMillis (total : Nat) : Timecode where
  hours := total / 3600000
  minutes := total / 60000 % 60
  seconds := total / 1000 % 60
  millis := total % 1000

def toMillis (t : Timecode) : Nat :=
  ((t.hours * 60 + t.minutes) * 60 + t.seconds) * 1000 + t.millis

/-- The milliseconds of a position, rounded to the nearest, so that `4.35` does not fall to 4349. -/
def nearestMillis (position : Duration) : Nat :=
  ((Decimal.nearestInt? position.millis).getD 0).toNat

def ofDuration (position : Duration) : Timecode := ofMillis (nearestMillis position)

/-- Two digits each for hours, minutes and seconds and three for milliseconds, which a mark sets
apart. -/
def write (mark : Char) (t : Timecode) : List Char :=
  Decimal.padded 2 t.hours ++ ':' :: Decimal.padded 2 t.minutes ++ ':' ::
    Decimal.padded 2 t.seconds ++ mark :: Decimal.padded 3 t.millis

/-- Splitting into clock units loses nothing. -/
theorem toMillis_ofMillis (total : Nat) : (ofMillis total).toMillis = total := by
  simp only [ofMillis, toMillis]
  omega

theorem minutes_ofMillis_lt (total : Nat) : (ofMillis total).minutes < 60 :=
  Nat.mod_lt _ (by decide)

theorem seconds_ofMillis_lt (total : Nat) : (ofMillis total).seconds < 60 :=
  Nat.mod_lt _ (by decide)

theorem millis_ofMillis_lt (total : Nat) : (ofMillis total).millis < 1000 :=
  Nat.mod_lt _ (by decide)

end Timecode

end SpeechTranscript
