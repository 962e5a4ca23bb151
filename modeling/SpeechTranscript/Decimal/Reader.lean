import SpeechTranscript.Decimal.Digits
import SpeechTranscript.Decimal.Exact

/-!
# Reading decimals

A number on a command line: an optional sign, then `inf`, `infinity` or `nan` in any case, or digits
with an optional point and an optional exponent. The digits must not all be missing, no blank is
skipped and no separator is known. The result is the nearest double. The digits of an exponent count
until its magnitude has reached a limit, those after them do not.
-/

namespace SpeechTranscript.Decimal

/-- The magnitude from which on the digits of an exponent are passed over. -/
def exponentLimit : Nat := 65536

/-- The magnitude of an exponent: the value of its digits up to the one with which it reaches the
limit. -/
def exponentMagnitude (digits : List Char) : Nat :=
  digits.foldl (fun n c => if n < exponentLimit then pushDigit n c else n) 0

/-- An exponent after its mark: an optional sign and at least one digit. -/
def readExponent? (cs : List Char) : Option Int :=
  let (negative, digits) := match cs with
    | '-' :: rest => (true, rest)
    | '+' :: rest => (false, rest)
    | rest => (false, rest)
  if digits.isEmpty || digits.any (!·.isDigit) then none
  else
    let magnitude : Int := exponentMagnitude digits
    some (if negative then -magnitude else magnitude)

/-- An unsigned decimal literal with its sign supplied. -/
def readMagnitude? (negative : Bool) (cs : List Char) : Option Float :=
  let whole := cs.takeWhile Char.isDigit
  let afterWhole := cs.drop whole.length
  let (fraction, afterFraction) := match afterWhole with
    | '.' :: rest => (rest.takeWhile Char.isDigit, rest.dropWhile Char.isDigit)
    | rest => ([], rest)
  let exponent? := match afterFraction with
    | [] => some 0
    | mark :: rest => if mark == 'e' || mark == 'E' then readExponent? rest else none
  if whole.isEmpty && fraction.isEmpty then none
  else exponent?.map fun exponent =>
    -- read as a whole number, each digit of the fraction a power of ten too high
    ofDecimal negative (digitsValue (whole ++ fraction)) (exponent - fraction.length)

def read? (s : String) : Option Float :=
  let (negative, body) := match s.toList with
    | '-' :: rest => (true, rest)
    | '+' :: rest => (false, rest)
    | rest => (false, rest)
  let lower := body.map Char.toLower
  if lower == ['n', 'a', 'n'] then some (0 / 0)
  else if lower == ['i', 'n', 'f'] || lower == "infinity".toList then
    some (if negative then -1 / 0 else 1 / 0)
  else readMagnitude? negative body

end SpeechTranscript.Decimal
