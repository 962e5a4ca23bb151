import SpeechTranscript.Decimal.Rounding

/-!
# Shortest decimals

The decimal that stands for a double is the one with the fewest digits among those that read back
to it, and the nearest to it among those. The doubles around `m · 2 ^ e` leave it an interval of
reals that round to it; its ends belong to it exactly when `m` is even. For one digit, two digits,
and so on, the two neighbours of the value on that decimal grid are tried against the interval: if
any point of a grid lies inside, one of these two does. Grids without a point inside are passed over
at once: the finest grid has a first and a last point inside, and the points of a coarser grid are
those of the finest that end in zeros.
-/

namespace SpeechTranscript.Decimal

/-- How many decimal digits a natural number has; counted in blocks, as long division is slow. -/
def digitCount (n : Nat) : Nat :=
  if n < 1000000000000000000 then (Nat.toDigits 10 n).length
  else 18 + digitCount (n / 1000000000000000000)
termination_by n
decreasing_by exact Nat.div_lt_self (by omega) (by decide)

/-- A value together with the reals that round to it, all over one denominator: from
`value - below` to `value + above`. -/
structure Interval where
  value : Nat
  below : Nat
  above : Nat
  denominator : Nat
  /-- Whether the ends round to the value. -/
  closed : Bool

namespace Interval

def leastExponent : Int := -1074

/-- The reals that round to `m · 2 ^ e`. The gap below a power of two is half as wide, unless the
exponent is already the least. -/
def ofDyadic (m : Nat) (e : Int) : Interval :=
  let scale := 1 <<< (e - 2).toNat
  { value := 4 * m * scale
    below := (if m = 1 <<< 52 ∧ leastExponent < e then 1 else 2) * scale
    above := 2 * scale
    denominator := 1 <<< (2 - e).toNat
    closed := m % 2 == 0 }

def inUnits (i : Interval) (k : Int) : Interval :=
  let up := Nat.pow 10 (-k).toNat
  { i with
    value := i.value * up
    below := i.below * up
    above := i.above * up
    denominator := i.denominator * Nat.pow 10 k.toNat }

/-- Whether the whole number `d` lies in the interval. -/
def contains (i : Interval) (d : Nat) : Bool :=
  let x := d * i.denominator
  if i.closed then i.value ≤ x + i.below && x ≤ i.value + i.above
  else i.value < x + i.below && x < i.value + i.above

/-- The first and the last whole number in the interval; it is empty if they are out of order. -/
def bounds (i : Interval) : Nat × Nat :=
  let low := i.value - i.below
  let high := i.value + i.above
  if i.closed then ((low + (i.denominator - 1)) / i.denominator, high / i.denominator)
  else (low / i.denominator + 1, (high - 1) / i.denominator)

/-- The exponent of the leading decimal digit of the value. -/
def leadingExponent (i : Interval) : Int :=
  if i.denominator ≤ i.value then (digitCount (i.value / i.denominator) : Int) - 1
  -- less one, so that a power of ten is not taken for the one below it
  else Int.neg (digitCount ((i.denominator - 1) / i.value))

/-- The whole number inside the interval that is nearest to the value, if one of the value's two
neighbours is inside. -/
def nearestInside? (tie : Tie) (i : Interval) : Option Nat :=
  let q := i.value / i.denominator
  let side := compare (2 * (i.value % i.denominator)) i.denominator
  match i.contains q, i.contains (q + 1) with
  | true, true => some (if tie.roundsUp q side then q + 1 else q)
  | true, false => some q
  | false, true => some (q + 1)
  | false, false => none

/-- The first grid, from unit `10 ^ k` on downwards, with a point inside the interval; after
`grids` of them the value is rounded to the one reached. -/
def firstInside (tie : Tie) (i : Interval) : (grids : Nat) → (k : Int) → Nat × Int
  | 0, k =>
    let j := i.inUnits k
    (roundDiv tie j.value j.denominator, k)
  | grids + 1, k =>
    match (i.inUnits k).nearestInside? tie with
    | some d => (d, k)
    | none => i.firstInside tie grids (k - 1)

end Interval

/-- The greatest `t` up to `most` for which a multiple of `10 ^ t` lies between two numbers. -/
def zerosBetween (low high : Nat) : (most : Nat) → Nat
  | 0 => 0
  | t + 1 =>
    let unit := Nat.pow 10 (t + 1)
    if low ≤ high / unit * unit then t + 1 else zerosBetween low high t

def mostZeros : Nat := 16

/-- The shortest decimal `d · 10 ^ k` that reads back to `m · 2 ^ e`, as `(d, k)`. Seventeen digits
always suffice. -/
def shortest (tie : Tie) (m : Nat) (e : Int) : Nat × Int :=
  if m = 0 then (0, 0)
  else
    let i := Interval.ofDyadic m e
    -- seventeen digits, so there is a whole number in the interval
    let finest := i.leadingExponent - mostZeros
    let bounds := (i.inUnits finest).bounds
    let zeros := zerosBetween bounds.1 bounds.2 mostZeros
    i.firstInside tie (zeros + 1) (finest + zeros)

end SpeechTranscript.Decimal
