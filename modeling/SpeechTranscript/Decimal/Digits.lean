/-!
# Runs of digits

The value of a run of decimal digits. A run is read by halves, so that a long one costs little more
than the products of its parts; `digitsValue_eq_foldl` says that this is the value read digit by
digit.
-/

namespace SpeechTranscript.Decimal

def pushDigit (n : Nat) (c : Char) : Nat := 10 * n + (c.toNat - '0'.toNat)

/-- The value of the first `count` digits, read by halves to the given depth, and what is left. -/
def takeValue : (depth count : Nat) → List Char → Nat × List Char
  | 0, count, digits => ((digits.take count).foldl pushDigit 0, digits.drop count)
  | depth + 1, count, digits =>
    let lower := count / 2
    let high := takeValue depth (count - lower) digits
    let low := takeValue depth lower high.2
    (high.1 * Nat.pow 10 lower + low.1, low.2)

def digitsValue (digits : List Char) : Nat :=
  (takeValue (digits.length.log2 - 4) digits.length digits).1

/-- What was read before a run counts for a power of ten more with each of its digits. -/
theorem foldl_pushDigit (n : Nat) (digits : List Char) :
    digits.foldl pushDigit n = n * Nat.pow 10 digits.length + digits.foldl pushDigit 0 := by
  induction digits generalizing n with
  | nil => exact (Nat.mul_one n).symm
  | cons c rest ih =>
    have power : Nat.pow 10 (rest.length + 1) = Nat.pow 10 rest.length * 10 := rfl
    rw [List.foldl_cons, List.foldl_cons, ih, ih (pushDigit 0 c), List.length_cons, power]
    simp only [pushDigit, Nat.add_mul, Nat.mul_zero, Nat.zero_add]
    rw [Nat.mul_comm 10 n, Nat.mul_assoc, Nat.mul_comm 10, Nat.add_assoc]

/-- Reading by halves gives the value of the digits in front, and leaves the others. -/
theorem takeValue_eq (depth : Nat) {count : Nat} {digits : List Char}
    (enough : count ≤ digits.length) :
    takeValue depth count digits =
      ((digits.take count).foldl pushDigit 0, digits.drop count) := by
  induction depth generalizing count digits with
  | zero => rfl
  | succ depth ih =>
    have whole : count - count / 2 + count / 2 = count :=
      Nat.sub_add_cancel (Nat.div_le_self count 2)
    have enoughLow : count / 2 ≤ (digits.drop (count - count / 2)).length := by
      rw [List.length_drop]
      omega
    have length : ((digits.drop (count - count / 2)).take (count / 2)).length = count / 2 :=
      List.length_take_of_le enoughLow
    rw [takeValue]
    simp only [ih (Nat.le_trans (Nat.sub_le _ _) enough), ih enoughLow]
    rw [List.drop_drop, whole]
    congr 1
    conv => rhs; rw [← whole, List.take_add, List.foldl_append, foldl_pushDigit, length]

theorem digitsValue_eq_foldl (digits : List Char) :
    digitsValue digits = digits.foldl pushDigit 0 := by
  rw [digitsValue, takeValue_eq _ (Nat.le_refl _), List.take_length]

end SpeechTranscript.Decimal
