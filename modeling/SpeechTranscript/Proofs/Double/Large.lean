import SpeechTranscript.Proofs.Double.Products

/-!
# Results that may be too large

A result past the largest double is the positive infinity, which is above every number. So a result
is never below the number it is rounded from, whether it is finite or not, and this is all that a
comparison with a small number asks for.

* `AtLeast`: a double that is not below a number.
* `atLeast_div`, `atLeast_ofNat`, `AtLeast.mul`: results of any size.
-/

namespace SpeechTranscript.Double

open Float.Model Float.Model.UnpackedFloat

/-- A double that is not below a number: the positive infinity, or a finite one whose number is not
below. -/
def AtLeast (x : Float) (q : ℚ) : Prop :=
  x.toModel.unpack = .infinity .positive ∨ x.isFinite = true ∧ q ≤ value x

section Pack

variable {u : UnpackedFloat} {q : ℚ}

/-- A normal form that is too large for a double is packed as the infinity. -/
theorem unpack_pack_of_large {m : ℕ} {e : ℤ} (hm : 0 < m) (h : 972 ≤ e) :
    (Float.Model.pack (.finite .positive m e hm)).unpack = .infinity .positive := by
  have hbias : e + Format.binary64.exponentBias + Format.binary64.mantissaBitsWithoutImplicit =
      e + 1075 := by
    rw [add_assoc]
    rfl
  -- the exponent field would be full
  have hfull : 2 ^ Format.binary64.exponentBits ≤ (e + 1075).toNat + 1 := by
    show 2048 ≤ _
    omega
  have hpacked : Float.Model.pack (.finite .positive m e hm) =
      Float.Model.pack (.infinity .positive) := by
    simp only [Float.Model.pack, UnpackedFloat.pack, hbias, if_pos hfull]
  rw [hpacked]
  exact unpack_pack trivial

/-- What is packed is not below its number. -/
theorem HasValue.atLeast (h : HasValue u q) (hq : 0 ≤ q) : AtLeast (.ofModel (.pack u)) q := by
  by_cases hnormal : Normal u
  · right
    show (Float.Model.pack u).unpack.isFinite = true ∧ q ≤ unpackedValue (Float.Model.pack u).unpack
    rw [unpack_pack hnormal]
    exact ⟨h.finite, h.value_eq.ge⟩
  · -- only the size of the exponent can keep it from being one
    left
    cases u with
    | infinity sign => exact absurd trivial hnormal
    | notANumber => exact absurd trivial hnormal
    | zero sign => exact absurd trivial hnormal
    | finite sign m e hm =>
      have hlarge : 971 < e := Int.not_le.1 fun hsmall => hnormal ⟨h.normal rfl, hsmall⟩
      cases sign with
      | positive => exact unpack_pack_of_large hm hlarge
      | negative =>
        have hbelow : unpackedValue (.finite .negative m e hm) < 0 := by
          rw [unpackedValue_negative]
          exact neg_lt_zero.2 (unpackedValue_pos hm)
        rw [h.value_eq] at hbelow
        exact absurd hbelow hq.not_gt

end Pack

section AtLeast

variable {x y : Float} {q r : ℚ} {n : ℕ}

theorem AtLeast.mono (h : AtLeast x q) (hr : r ≤ q) : AtLeast x r :=
  h.imp id fun ⟨hfinite, hle⟩ => ⟨hfinite, hr.trans hle⟩

theorem atLeast_min_iff : AtLeast x (min q r) ↔ AtLeast x q ∨ AtLeast x r := by
  constructor
  · intro h
    rcases min_choice q r with heq | heq <;> rw [heq] at h
    · exact .inl h
    · exact .inr h
  · rintro (h | h)
    · exact h.mono (min_le_left _ _)
    · exact h.mono (min_le_right _ _)

/-- A finite double is below the positive infinity and above the negative one. -/
theorem compare_infinity {u : UnpackedFloat} (h : u.isFinite = true) (sign : Sign) :
    u.compare (.infinity sign) = some (if sign == .positive then .lt else .gt) ∧
      (infinity sign).compare u = some (if sign == .positive then .gt else .lt) := by
  cases u with
  | infinity sign' => contradiction
  | notANumber => contradiction
  | zero sign' => cases sign <;> exact ⟨rfl, rfl⟩
  | finite sign' m e hm => cases sign <;> exact ⟨rfl, rfl⟩

/-- A double that is at least a number is above every double whose number is smaller. -/
theorem AtLeast.lt (h : AtLeast x q) (hy : y.isFinite = true) (hlt : value y < q) : y < x := by
  rcases h with hinfinite | ⟨hfinite, hle⟩
  · show (decide (UnpackedFloat.lt y.toModel.unpack x.toModel.unpack = true)) = true
    rw [hinfinite, UnpackedFloat.lt, (compare_infinity hy .positive).1]
    rfl
  · exact (lt_iff hy hfinite).2 (hlt.trans_le hle)

/-- What is not above a finite double is finite, if it is above another. -/
theorem isFinite_of_not_lt {low high : Float} (hlow : low.isFinite = true)
    (hhigh : high.isFinite = true) (h : low ≤ x) (h' : ¬ high < x) : x.isFinite = true := by
  change decide (UnpackedFloat.le low.toModel.unpack x.toModel.unpack = true) = true at h
  change ¬ decide (UnpackedFloat.lt high.toModel.unpack x.toModel.unpack = true) = true at h'
  change low.toModel.unpack.isFinite = true at hlow
  change high.toModel.unpack.isFinite = true at hhigh
  show x.toModel.unpack.isFinite = true
  rw [decide_eq_true_iff] at h h'
  generalize low.toModel.unpack = a at *
  generalize high.toModel.unpack = b at *
  cases hx : x.toModel.unpack with
  | zero sign => rfl
  | finite sign m e hm => rfl
  | notANumber =>
    rw [hx] at h
    cases a <;> contradiction
  | infinity sign =>
    rw [hx] at h h'
    cases sign with
    | positive => cases b <;> contradiction
    | negative => cases a <;> contradiction

/-- A product with a positive number. -/
theorem AtLeast.mul (h : AtLeast x q) (hq : 0 ≤ q) (hy : y.isFinite = true) (hpos : 0 < value y) :
    AtLeast (x * y) (rounded (q * value y)) := by
  rcases h with hinfinite | ⟨hfinite, hle⟩
  · left
    show (Float.Model.pack (UnpackedFloat.mul Format.binary64 x.toModel.unpack
      y.toModel.unpack)).unpack = _
    obtain ⟨m, e, hm, hunpack⟩ := exists_unpack_of_pos hy hpos
    rw [hinfinite, hunpack]
    exact unpack_pack trivial
  · -- the finite case is that of the product of the values
    have hproduct : 0 ≤ value x * value y := mul_nonneg (hq.trans hle) hpos.le
    have hvalue := hasValue_mul hfinite hy (normal_unpack _) (normal_unpack _)
    refine AtLeast.mono (hvalue.atLeast (rounded_nonneg hproduct)) ?_
    exact rounded_mono (mul_le_mul_of_nonneg_right hle hpos.le)

/-- A quotient of numbers that are not negative. -/
theorem atLeast_div (hx : x.isFinite = true) (hy : y.isFinite = true) (hnonneg : 0 ≤ value x)
    (hpos : 0 < value y) : AtLeast (x / y) (rounded (value x / value y)) :=
  (hasValue_div hx hy hpos.ne').atLeast (rounded_nonneg (div_nonneg hnonneg hpos.le))

/-- A whole number. -/
theorem atLeast_ofNat (n : ℕ) : AtLeast (Float.ofNat n) (rounded n) := by
  rcases le_or_gt n (2 ^ 100) with hsmall | hlarge
  · obtain ⟨hfinite, hvalue⟩ := value_ofNat hsmall
    exact .inr ⟨hfinite, hvalue.ge⟩
  · show AtLeast (Float.ofScientific n false 0) _
    unfold Float.ofScientific
    split
    · rename_i hshort
      exact absurd (hshort.1.trans_le (by norm_num)) hlarge.not_gt
    · exact (hasValue_ofScientific (by omega)).atLeast (rounded_nonneg n.cast_nonneg)

end AtLeast

end SpeechTranscript.Double
