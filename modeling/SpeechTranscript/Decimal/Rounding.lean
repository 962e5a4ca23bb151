import SpeechTranscript.Decimal.Exact

/-!
# Rounding to whole numbers

Division rounded to nearest under a stated rule for halves, and the two operations on doubles that
rest on it: the nearest whole number and the remainder.
-/

namespace SpeechTranscript.Decimal

/-- Which neighbour a value exactly half way goes to. -/
inductive Tie where
  | toEven
  | away
  deriving DecidableEq, Repr

/-- Whether a quotient `q` whose rest stands to the divisor as `side` says is moved up by one. -/
def Tie.roundsUp (tie : Tie) (q : Nat) (side : Ordering) : Bool :=
  match side with
  | .lt => false
  | .gt => true
  | .eq => match tie with
    | .toEven => q % 2 == 1
    | .away => true

/-- `num / den` rounded to the nearest natural number. -/
def roundDiv (tie : Tie) (num den : Nat) : Nat :=
  let q := num / den
  if tie.roundsUp q (compare (2 * (num % den)) den) then q + 1 else q

/-- A quotient is rounded to a number at most half a unit away. -/
theorem roundDiv_bounds (tie : Tie) (num : Nat) {den : Nat} (h : 0 < den) :
    2 * num ≤ 2 * (den * roundDiv tie num den) + den ∧
      2 * (den * roundDiv tie num den) ≤ 2 * num + den := by
  have whole : den * (num / den) + num % den = num := Nat.div_add_mod num den
  have rest : num % den < den := Nat.mod_lt num h
  simp only [roundDiv]
  split
  · rename_i up
    -- moved up only if the rest is at least half of the divisor
    have half : den ≤ 2 * (num % den) := by
      cases order : compare (2 * (num % den)) den with
      | lt => rw [order] at up; exact absurd up (by simp [Tie.roundsUp])
      | eq => exact Nat.le_of_eq (Nat.compare_eq_eq.1 order).symm
      | gt => exact Nat.le_of_lt (Nat.compare_eq_gt.1 order)
    rw [Nat.mul_add, Nat.mul_one]
    constructor <;> omega
  · rename_i down
    have half : 2 * (num % den) ≤ den := by
      cases order : compare (2 * (num % den)) den with
      | lt => exact Nat.le_of_lt (Nat.compare_eq_lt.1 order)
      | eq => exact Nat.le_of_eq (Nat.compare_eq_eq.1 order)
      | gt => rw [order] at down; exact absurd rfl down
    constructor <;> omega

/-- A tie goes to the even neighbour under `toEven`. -/
theorem even_roundDiv_of_half {num den : Nat} (h : 2 * (num % den) = den) :
    roundDiv .toEven num den % 2 = 0 := by
  simp only [roundDiv, h, Tie.roundsUp, Nat.compare_eq_eq.2 rfl]
  split
  · rename_i odd
    rw [beq_iff_eq] at odd
    omega
  · rename_i even
    rw [beq_iff_eq] at even
    omega

theorem roundDiv_away_of_half {num den : Nat} (h : 2 * (num % den) = den) :
    roundDiv .away num den = num / den + 1 := by
  simp only [roundDiv, h, Tie.roundsUp, Nat.compare_eq_eq.2 rfl, if_true]

def roundDyadic (tie : Tie) (mantissa : Nat) (exponent : Int) : Nat :=
  roundDiv tie (mantissa <<< exponent.toNat) (1 <<< (-exponent).toNat)

/-- The nearest whole number, a half going away from zero; nothing for infinities and NaN. -/
def nearestInt? (x : Float) : Option Int :=
  match Exact.ofFloat x with
  | .finite negative mantissa exponent =>
    let magnitude : Int := roundDyadic .away mantissa exponent
    some (if negative then -magnitude else magnitude)
  | _ => none

/-- The nearest whole number as a double, a half going away from zero. The sign of zero, infinities
and NaN are kept. -/
def roundWhole (x : Float) : Float :=
  match Exact.ofFloat x with
  | .finite negative mantissa exponent =>
    ofDyadic negative (roundDyadic .away mantissa exponent) 0
  | _ => x

/-- The exact remainder of `x` divided by `y`, with the sign of `x`. -/
def remainder (x y : Float) : Float :=
  match Exact.ofFloat x, Exact.ofFloat y with
  | .finite negative m e, .finite _ n f =>
    if n = 0 then 0 / 0
    else
      let low := min e f
      ofDyadic negative ((m <<< (e - low).toNat) % (n <<< (f - low).toNat)) low
  | .finite .., .infinite _ => x
  | _, _ => 0 / 0

end SpeechTranscript.Decimal
