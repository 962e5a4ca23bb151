import SpeechTranscript.Decimal.Shortest

/-!
# Written decimals

Two ways to write a double: with its shortest digits, under a `Style` that says what the format
leaves open, and with a fixed number of places.
-/

namespace SpeechTranscript.Decimal

/-- The digits of `n`, with zeros in front up to `width`. -/
def padded (width n : Nat) : List Char :=
  let digits := Nat.toDigits 10 n
  List.replicate (width - digits.length) '0' ++ digits

/-- What a format of shortest decimals decides for itself. -/
structure Style where
  /-- The exponents of the leading digit for which the point is written in place. -/
  positional : Int → Bool
  /-- What follows a whole number written in place. -/
  wholeEnding : List Char
  /-- The choice between two equally near decimals of the same length. -/
  tie : Tie

/-- In messages and listings a number is always written in place, a whole one without a point. -/
def plain : Style := ⟨fun _ => true, [], .away⟩

namespace Style

/-- `digits · 10 ^ exponent` with the point in place. -/
def inPlace (style : Style) (digits : List Char) (exponent : Int) : List Char :=
  if 0 ≤ exponent then
    digits ++ List.replicate exponent.toNat '0' ++ style.wholeEnding
  else
    let places := (-exponent).toNat
    -- with at least one digit before the point
    let all := List.replicate (places + 1 - digits.length) '0' ++ digits
    all.take (all.length - places) ++ '.' :: all.drop (all.length - places)

/-- `digits · 10 ^ exponent` with the point after the first digit and a signed exponent. -/
def scientific (digits : List Char) (exponent : Int) : List Char :=
  let leading := exponent + digits.length - 1
  let mantissa := match digits with
    | first :: second :: rest => first :: '.' :: second :: rest
    | short => short
  let sign := if leading < 0 then '-' else '+'
  mantissa ++ 'e' :: sign :: Nat.toDigits 10 leading.natAbs

def magnitude (style : Style) (m : Nat) (e : Int) : List Char :=
  let (d, k) := shortest style.tie m e
  let digits := Nat.toDigits 10 d
  let zeros := if d = 0 then 0 else (digits.reverse.takeWhile (· == '0')).length
  -- zeros at the end go into the exponent
  let kept := digits.take (digits.length - zeros)
  let exponent := k + zeros
  if d = 0 ∨ style.positional (exponent + kept.length - 1) then style.inPlace kept exponent
  else scientific kept exponent

/-- A double under this style; the special values are `NaN`, `inf` and `-inf`. -/
def write (style : Style) (x : Float) : String :=
  match Exact.ofFloat x with
  | .notANumber => "NaN"
  | .infinite negative => if negative then "-inf" else "inf"
  | .finite negative m e =>
    String.ofList ((if negative then ['-'] else []) ++ style.magnitude m e)

end Style

def text (x : Float) : String := plain.write x

/-- A double rounded to `places` decimal places. The exact binary value is rounded, and a tie goes
to the even digit. -/
def fixed (places : Nat) (x : Float) : String :=
  match Exact.ofFloat x with
  | .notANumber => "NaN"
  | .infinite negative => if negative then "-inf" else "inf"
  | .finite negative m e =>
    let scaled := roundDyadic .toEven (m * Nat.pow 10 places) e
    let digits := padded (places + 1) scaled
    let whole := digits.take (digits.length - places)
    let fraction := digits.drop (digits.length - places)
    String.ofList <|
      (if negative then ['-'] else []) ++ whole ++
        (if places = 0 then [] else '.' :: fraction)

end SpeechTranscript.Decimal
