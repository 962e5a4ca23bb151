import SpeechTranscript.Proofs.Double.Exact
import SpeechTranscript.Proofs.Double.Halves

/-!
# Infinities and what is no number

What is no number stays so in every sum, product and quotient, and no comparison with it holds. A
quotient by the infinity is no number either, unless a finite double is divided. Doubles that are
not negative have a finite sum only if they are finite themselves, and finite doubles are all small
enough for what is rounded to no more than one of them.

* `isNaN_add`, `isNaN_mul`, `isNaN_div`, `not_lt_of_isNaN`, `beq_eq_false_of_isNaN`: what is no
  number.
* `isNaN_div_infinity`: quotients by the infinity.
* `AtLeast.isFinite_of_add`: the parts of a finite sum.
* `abs_rounded_lt_of_le`: what is small enough for a double.
-/

namespace SpeechTranscript.Double

open Float.Model Float.Model.UnpackedFloat

section NotANumber

variable {x y : Float}

theorem isNaN_iff : x.isNaN = true ↔ x.toModel.unpack = .notANumber := by
  show x.toModel.unpack.isNaN = true ↔ _
  cases x.toModel.unpack <;> simp [UnpackedFloat.isNaN]

/-- A double that is packed from what is no number. -/
theorem isNaN_ofModel {u : UnpackedFloat} (h : u = .notANumber) :
    (Float.ofModel (.pack u)).isNaN = true := by
  subst h
  exact isNaN_iff.2 (unpack_pack trivial)

theorem isNaN_add (h : x.isNaN = true) (y : Float) : (x + y).isNaN = true := by
  refine isNaN_ofModel ?_
  rw [isNaN_iff.1 h]
  rfl

theorem isNaN_mul (h : x.isNaN = true) (y : Float) : (x * y).isNaN = true := by
  refine isNaN_ofModel ?_
  rw [isNaN_iff.1 h]
  rfl

theorem isNaN_div (h : x.isNaN = true) (y : Float) : (x / y).isNaN = true := by
  refine isNaN_ofModel ?_
  rw [isNaN_iff.1 h]
  rfl

theorem compare_notANumber (u : UnpackedFloat) :
    UnpackedFloat.compare .notANumber u = none ∧ u.compare .notANumber = none := by
  cases u <;> exact ⟨rfl, rfl⟩

/-- What is no number is neither less nor greater. -/
theorem not_lt_of_isNaN (h : x.isNaN = true) (y : Float) : ¬ x < y ∧ ¬ y < x := by
  constructor
  · show ¬ decide (UnpackedFloat.lt x.toModel.unpack y.toModel.unpack = true) = true
    rw [decide_eq_true_iff, isNaN_iff.1 h, UnpackedFloat.lt, (compare_notANumber _).1]
    decide
  · show ¬ decide (UnpackedFloat.lt y.toModel.unpack x.toModel.unpack = true) = true
    rw [decide_eq_true_iff, isNaN_iff.1 h, UnpackedFloat.lt, (compare_notANumber _).2]
    decide

theorem beq_eq_false_of_isNaN (h : x.isNaN = true) (y : Float) : (x == y) = false := by
  show (x.toModel.unpack.compare y.toModel.unpack == some .eq) = false
  rw [isNaN_iff.1 h, (compare_notANumber _).1]
  rfl

/-- A number that is neither below one finite double nor above another is finite. -/
theorem isFinite_of_not_isNaN {low high : Float} (hx : x.isNaN = false)
    (hlow : low.isFinite = true) (hhigh : high.isFinite = true) (h : ¬ x < low)
    (h' : ¬ high < x) : x.isFinite = true := by
  change x.toModel.unpack.isNaN = false at hx
  show x.toModel.unpack.isFinite = true
  cases hunpack : x.toModel.unpack with
  | zero sign => rfl
  | finite sign m e hm => rfl
  | notANumber =>
    rw [hunpack] at hx
    contradiction
  -- an infinity would be beyond one of the bounds
  | infinity sign =>
    cases sign with
    | positive =>
      have habove : AtLeast x (value high + 1) := .inl hunpack
      exact absurd (habove.lt hhigh (lt_add_one _)) h'
    | negative =>
      refine absurd ?_ h
      show decide (UnpackedFloat.lt x.toModel.unpack low.toModel.unpack = true) = true
      rw [hunpack, UnpackedFloat.lt, (compare_infinity hlow .negative).2]
      rfl

/-- What is divided by the infinity vanishes if it is finite, and is no number if it is not. -/
theorem isNaN_div_infinity (hy : y.toModel.unpack = .infinity .positive) :
    (x / y).isNaN = !x.isFinite := by
  show (Float.Model.pack (UnpackedFloat.div Format.binary64 x.toModel.unpack
    y.toModel.unpack)).unpack.isNaN = !x.toModel.unpack.isFinite
  rw [hy]
  cases x.toModel.unpack with
  | notANumber => rfl
  | infinity sign => cases sign <;> rfl
  | zero sign => cases sign <;> rfl
  | finite sign m e hm =>
    have hquotient : UnpackedFloat.div Format.binary64 (.finite sign m e hm)
        (.infinity .positive) = .zero (sign / .positive) := rfl
    rw [hquotient, unpack_pack (u := .zero (sign / .positive)) trivial]
    rfl

end NotANumber

section Order

variable {x y : Float} {p q : ℚ}

/-- Strictly less is less or equal, also for infinities. -/
protected theorem le_of_lt (h : x < y) : x ≤ y := by
  change decide (UnpackedFloat.lt x.toModel.unpack y.toModel.unpack = true) = true at h
  show decide (UnpackedFloat.le x.toModel.unpack y.toModel.unpack = true) = true
  rw [decide_eq_true_iff, UnpackedFloat.lt, beq_iff_eq] at h
  rw [decide_eq_true_iff, UnpackedFloat.le, h]
  rfl

/-- A finite double is a number. -/
theorem not_isNaN_of_isFinite (h : x.isFinite = true) : x.isNaN = false := by
  cases hx : x.isNaN with
  | false => rfl
  | true =>
    change x.toModel.unpack.isFinite = true at h
    rw [isNaN_iff.1 hx] at h
    contradiction

/-- Finite doubles have a largest one. -/
theorem abs_value_lt (x : Float) : |value x| < 2 ^ 1024 := by
  have hnormal := normal_unpack x.toModel
  show |unpackedValue x.toModel.unpack| < 2 ^ 1024
  cases hx : x.toModel.unpack with
  | finite sign m e hm =>
    rw [hx] at hnormal
    rw [unpackedValue_finite, abs_signed _ (mul_nonneg m.cast_nonneg (two_zpow_pos e).le)]
    exact hnormal.1.mul_pow_lt_of_le hnormal.2
  | _ =>
    show |(0 : ℚ)| < 2 ^ 1024
    rw [abs_zero]
    positivity

/-- What is not above a double is small enough for one. -/
theorem abs_rounded_lt_of_le (hq : 0 ≤ q) (h : rounded q ≤ value x) : |rounded q| < 2 ^ 1024 := by
  rw [abs_of_nonneg (rounded_nonneg hq)]
  exact h.trans_lt ((le_abs_self _).trans_lt (abs_value_lt x))

/-- A finite double that is at least a number has a value that is. -/
theorem AtLeast.le_value (h : AtLeast x q) (hx : x.isFinite = true) : q ≤ value x := by
  rcases h with hinfinite | ⟨-, hle⟩
  · change x.toModel.unpack.isFinite = true at hx
    rw [hinfinite] at hx
    contradiction
  · exact hle

/-- If doubles that are not negative have a finite sum, they are finite. -/
theorem AtLeast.isFinite_of_add (hx : AtLeast x p) (hy : AtLeast y q)
    (hsum : (x + y).isFinite = true) : x.isFinite = true ∧ y.isFinite = true := by
  have hunpack : (x + y).toModel.unpack = (Float.Model.pack
      (UnpackedFloat.add Format.binary64 x.toModel.unpack y.toModel.unpack)).unpack := rfl
  change (x + y).toModel.unpack.isFinite = true at hsum
  rw [hunpack] at hsum
  -- an infinity in either place would make the sum infinite
  rcases hx with hinfinite | ⟨hfinite, -⟩
  · rw [hinfinite, (infinity_add (hy.imp id fun h => h.1)).1] at hsum
    contradiction
  rcases hy with hinfinite | ⟨hfinite', -⟩
  · rw [hinfinite, (infinity_add (.inr hfinite)).2] at hsum
    contradiction
  · exact ⟨hfinite, hfinite'⟩

end Order

end SpeechTranscript.Double
