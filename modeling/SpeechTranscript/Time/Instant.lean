import SpeechTranscript.Time.Duration

/-!
# Instants

A point in time in UTC, kept as whole microseconds since the start of 1970. The calendar in use
reaches from the year -262143 to the year 262142.
-/

namespace SpeechTranscript

/-- Microseconds since the start of 1970. -/
structure Instant where
  micros : Int
  deriving DecidableEq, Repr

namespace Instant

def earliest : Int := -8334601228800 * 1000000

def latest : Int := 8210266876799 * 1000000 + 999999

instance : LT Instant := ⟨fun a b => a.micros < b.micros⟩

instance (a b : Instant) : Decidable (a < b) := inferInstanceAs (Decidable (a.micros < b.micros))

/-- The instant nearest to a number of seconds since 1970, if the calendar has it. -/
def ofUnixSeconds? (seconds : Float) : Option Instant :=
  if seconds.isFinite then
    match Decimal.nearestInt? (seconds * 1000000) with
    | some micros => if earliest ≤ micros ∧ micros ≤ latest then some ⟨micros⟩ else none
    | none => none
  else none

def unixSeconds (t : Instant) : Float :=
  Float.ofInt t.micros / 1000000

/-- The microseconds from one instant to another. A span that does not fit into 64 bits counts as
the longest forward one. -/
def microsSince (t origin : Instant) : Int :=
  let span := t.micros - origin.micros
  if Int64.minValue.toInt ≤ span ∧ span ≤ Int64.maxValue.toInt then span
  else Int64.maxValue.toInt

/-- The time since an earlier instant, zero if that instant is later. -/
def since (t origin : Instant) : Duration :=
  .saturating (Float.ofInt (t.microsSince origin) / 1000000)

end Instant

end SpeechTranscript
