import SpeechTranscript.InvalidValue

/-!
# Confidence

How sure the recognizer is of what it heard, from 0 to 1, and how two scores combine.
-/

namespace SpeechTranscript

def reliableThreshold : Float := 0.5

def highThreshold : Float := 0.8

structure Confidence where
  value : Float
  deriving DecidableEq

namespace Confidence

instance : BEq Confidence := ⟨fun a b => a.value == b.value⟩

def ofValue (value : Float) : Except InvalidValue Confidence :=
  if 0 ≤ value ∧ value ≤ 1 then .ok ⟨value⟩ else .error (.confidence value)

def zero : Confidence := ⟨0⟩

def certain : Confidence := ⟨1⟩

instance : Inhabited Confidence := ⟨zero⟩

def isReliable (c : Confidence) : Bool := reliableThreshold ≤ c.value

def isHigh (c : Confidence) : Bool := highThreshold ≤ c.value

/-- A number cut to the unit interval; what is no number stays so. -/
def clamp (x : Float) : Float :=
  if x < 0 then 0 else if 1 < x then 1 else x

/-- A weight as it counts in a mean: a negative one, or one that is no number, counts as zero. -/
def countedWeight (w : Float) : Float :=
  if 0 < w then w else 0

/-- The weighted mean of two scores; the plain mean if no weight is left. -/
def weighted (a : Confidence) (weightA : Float) (b : Confidence) (weightB : Float) : Confidence :=
  let wa := countedWeight weightA
  let wb := countedWeight weightB
  let total := wa + wb
  -- an infinite weight makes the mean no number
  if 0 < total then ⟨clamp ((a.value * wa + b.value * wb) / total)⟩
  else ⟨clamp ((a.value + b.value) / 2)⟩

def mean (a b : Confidence) : Confidence := a.weighted 1 b 1

def text (c : Confidence) : String := Decimal.fixed 2 c.value

end Confidence

end SpeechTranscript
