import SpeechTranscript.InvalidValue

/-!
# Progress

How much of the audio is done, as a percentage with two decimals.
-/

namespace SpeechTranscript

/-- A percentage from 0 to 100, rounded to two decimals. -/
structure Progress where
  percent : Float
  deriving DecidableEq

namespace Progress

/-- A number rounded to hundredths, a half going away from zero. -/
def hundredths (x : Float) : Float :=
  Decimal.roundWhole (x * 100) / 100

def ofPercent (percent : Float) : Except InvalidValue Progress :=
  if 0 ≤ percent ∧ percent ≤ 100 then .ok ⟨hundredths percent⟩ else .error (.progress percent)

/-- The share `ratio` of the whole. Ratios outside the unit interval count as its nearer end, and
what is no number as zero. -/
def ofRatio (ratio : Float) : Progress :=
  let share := if 1 < ratio then 1 else if 0 ≤ ratio then ratio else 0
  ⟨hundredths (share * 100)⟩

def zero : Progress := ⟨0⟩

def complete : Progress := ⟨100⟩

def isComplete (p : Progress) : Bool := 100 ≤ p.percent

def text (p : Progress) : String := Decimal.fixed 1 p.percent ++ "%"

end Progress

end SpeechTranscript
