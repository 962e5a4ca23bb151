/-!
# Exact values of doubles

A finite double is `± mantissa · 2 ^ exponent`. Everything in this library that prints or rounds a
number works on that exact value in integer arithmetic, so that no second rounding creeps in.
-/

namespace SpeechTranscript.Decimal

/-- What a double stands for. Both zeros are finite, with mantissa `0`. -/
inductive Exact where
  | notANumber
  | infinite (negative : Bool)
  | finite (negative : Bool) (mantissa : Nat) (exponent : Int)
  deriving DecidableEq, Repr

def Exact.ofFloat (x : Float) : Exact :=
  match x.toModel.unpack with
  | .notANumber => .notANumber
  | .infinity sign => .infinite (sign == .negative)
  | .zero sign => .finite (sign == .negative) 0 0
  | .finite sign mantissa exponent _ => .finite (sign == .negative) mantissa exponent

/-- The double nearest to `± mantissa · 2 ^ exponent`, ties to the even mantissa. -/
def ofDyadic (negative : Bool) (mantissa : Nat) (exponent : Int) : Float :=
  .ofModel (.pack (.round .binary64 (if negative then .negative else .positive) mantissa exponent))

/-- The double nearest to `± num / den`, ties to the even mantissa. The quotient is cut after more
bits than a double holds, and one bit more says whether anything was cut off; so nothing that the
rounding looks at is lost. -/
def ofRatio (negative : Bool) (num den : Nat) : Float :=
  let shift : Int := 55 + den.log2 - num.log2
  let scaled := num <<< shift.toNat
  let unit := den <<< (-shift).toNat
  let rest := if scaled % unit = 0 then 0 else 1
  ofDyadic negative (2 * (scaled / unit) + rest) (-shift - 1)

/-- A power of ten past which every whole number is out of range. -/
def outOfRangePower : Int := 400

/-- A power of two so small that everything below it rounds to zero. -/
def vanishingPower : Int := -1100

/-- The double nearest to `± digits · 10 ^ exponent`; past the largest double it is infinite. Where
the exponent alone decides, no power of ten is computed. -/
def ofDecimal (negative : Bool) (digits : Nat) (exponent : Int) : Float :=
  -- for a negative exponent `10 ^ exponent` is at most `2 ^ (3 * exponent)`
  if digits = 0 ∨ digits.log2 + 3 * exponent < vanishingPower then ofDyadic negative 0 0
  else if outOfRangePower < exponent then if negative then -1 / 0 else 1 / 0
  else ofRatio negative (digits * Nat.pow 10 exponent.toNat) (Nat.pow 10 (-exponent).toNat)

end SpeechTranscript.Decimal
