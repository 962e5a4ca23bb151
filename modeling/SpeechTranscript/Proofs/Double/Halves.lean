import SpeechTranscript.Proofs.Double.Large

/-!
# Halves

Halving a double lowers its exponent and leaves the mantissa alone, unless the double is one of the
very small ones. So rounding goes through halving, and a sum or a product that is compared with half
of another one may be compared before anything is rounded. This is how a bound of one half outlasts
any number of weighted means.

* `rounded_half`: half of a number, rounded.
* `AtLeast.add`, `AtLeast.div`: results of any size.
* `AtLeast.half_mul`, `AtLeast.half_add`, `AtLeast.half_div`: the steps of a weighted mean.
-/

namespace SpeechTranscript.Double

open Float.Model Float.Model.UnpackedFloat

/-! ## Rounding a half -/

section Half

variable {q : ℚ}

theorem log_half (h : 0 < q) : Int.log 2 (q / 2) = Int.log 2 q - 1 := by
  have hlow : (2 : ℚ) ^ (Int.log 2 q - 1) ≤ q / 2 := by
    rw [zpow_sub_one₀ two_ne_zero, ← div_eq_mul_inv]
    exact div_le_div_of_nonneg_right (Int.zpow_log_le_self (by norm_num) h) zero_le_two
  have hhigh : q / 2 < (2 : ℚ) ^ (Int.log 2 q) := by
    rw [div_lt_iff₀ two_pos, ← zpow_add_one₀ two_ne_zero]
    exact Int.lt_zpow_succ_log_self (by norm_num) q
  have hle := (Int.zpow_le_iff_le_log (by norm_num : 1 < 2) (half_pos h)).1 hlow
  have hlt := (Int.lt_zpow_iff_log_lt (by norm_num : 1 < 2) (half_pos h)).1 hhigh
  omega

/-- Half of a number is rounded to half of what the number is rounded to. -/
theorem rounded_half (h : 2 ^ (-1021 : ℤ) ≤ q) : rounded (q / 2) = rounded q / 2 := by
  have hpos : 0 < q := (two_zpow_pos _).trans_le h
  have hlog : -1021 ≤ Int.log 2 q :=
    (Int.zpow_le_iff_le_log (by norm_num) hpos).1 (by exact_mod_cast h)
  have hgrid : gridExponent (q / 2) = gridExponent q - 1 := by
    rw [gridExponent, gridExponent, log_half hpos]
    omega
  have hpow : (2 : ℚ) ^ (gridExponent q - 1) = 2 ^ gridExponent q / 2 := by
    rw [zpow_sub_one₀ two_ne_zero, div_eq_mul_inv]
  rw [rounded_of_nonneg hpos.le, rounded_of_nonneg (half_pos hpos).le, snapped, snapped, hgrid,
    hpow, div_div_div_cancel_right₀ two_ne_zero, mul_div_assoc]

/-- The number of a double needs no rounding. -/
theorem rounded_value (x : Float) : rounded (value x) = value x :=
  rounded_eq_self (onGrid_unpackedValue (normal_unpack _))

end Half

/-! ## Results of any size -/

section AtLeast

variable {x y low : Float} {p q : ℚ}

/-- What is not below a finite double is not below its number. -/
theorem atLeast_of_le (hlow : low.isFinite = true) (h : low ≤ x) : AtLeast x (value low) := by
  cases hx : x.toModel.unpack with
  -- only the negative one is below something finite
  | infinity sign =>
    cases sign with
    | positive => exact .inl hx
    | negative =>
      change decide (UnpackedFloat.le low.toModel.unpack x.toModel.unpack = true) = true at h
      rw [hx, UnpackedFloat.le, (compare_infinity hlow .negative).1] at h
      contradiction
  | notANumber =>
    change decide (UnpackedFloat.le low.toModel.unpack x.toModel.unpack = true) = true at h
    rw [decide_eq_true_iff, hx] at h
    cases hunpack : low.toModel.unpack <;> rw [hunpack] at h <;> contradiction
  | zero sign =>
    have hfinite : x.isFinite = true := by
      show x.toModel.unpack.isFinite = true
      rw [hx]
      rfl
    exact .inr ⟨hfinite, (le_iff hlow hfinite).1 h⟩
  | finite sign m e hm =>
    have hfinite : x.isFinite = true := by
      show x.toModel.unpack.isFinite = true
      rw [hx]
      rfl
    exact .inr ⟨hfinite, (le_iff hlow hfinite).1 h⟩

/-- A double that is at least a number is not below one whose number is no larger. -/
theorem AtLeast.le (h : AtLeast x q) (hy : y.isFinite = true) (hle : value y ≤ q) : y ≤ x := by
  rcases h with hinfinite | ⟨hfinite, hq⟩
  · show (decide (UnpackedFloat.le y.toModel.unpack x.toModel.unpack = true)) = true
    rw [hinfinite, UnpackedFloat.le, (compare_infinity hy .positive).1]
    rfl
  · exact (le_iff hy hfinite).2 (hle.trans hq)

/-- A comparison with a finite double is one with its number. -/
theorem le_iff_atLeast (hy : y.isFinite = true) : y ≤ x ↔ AtLeast x (value y) :=
  ⟨atLeast_of_le hy, fun h => h.le hy le_rfl⟩

theorem AtLeast.not_lt (h : AtLeast x q) (hy : y.isFinite = true) (hle : value y ≤ q) :
    ¬ x < y := by
  rcases h with hinfinite | ⟨hfinite, hq⟩
  · show ¬ (decide (UnpackedFloat.lt x.toModel.unpack y.toModel.unpack = true)) = true
    rw [hinfinite, UnpackedFloat.lt, (compare_infinity hy .positive).2]
    decide
  · rw [lt_iff hfinite hy]
    exact (hle.trans hq).not_gt

/-- Whatever is not the negative infinity leaves the positive one as it is. -/
theorem infinity_add {v : UnpackedFloat} (h : v = .infinity .positive ∨ v.isFinite = true) :
    UnpackedFloat.add Format.binary64 (.infinity .positive) v = .infinity .positive ∧
      UnpackedFloat.add Format.binary64 v (.infinity .positive) = .infinity .positive := by
  rcases h with rfl | hfinite
  · exact ⟨rfl, rfl⟩
  · cases v with
    | infinity sign => contradiction
    | notANumber => contradiction
    | zero sign => exact ⟨rfl, rfl⟩
    | finite sign m e hm => exact ⟨rfl, rfl⟩

/-- A sum. -/
theorem AtLeast.add (hx : AtLeast x p) (hy : AtLeast y q) (hp : 0 ≤ p) (hq : 0 ≤ q) :
    AtLeast (x + y) (rounded (p + q)) := by
  have hsum : (x + y).toModel.unpack = (Float.Model.pack
      (UnpackedFloat.add Format.binary64 x.toModel.unpack y.toModel.unpack)).unpack := rfl
  rcases hx with hinfinite | ⟨hfinite, hle⟩
  · left
    rw [hsum, hinfinite, (infinity_add (hy.imp id fun h => h.1)).1]
    exact unpack_pack trivial
  rcases hy with hinfinite | ⟨hfinite', hle'⟩
  · left
    rw [hsum, hinfinite, (infinity_add (.inr hfinite)).2]
    exact unpack_pack trivial
  · have hnonneg : 0 ≤ value x + value y := add_nonneg (hp.trans hle) (hq.trans hle')
    have hvalue := hasValue_add hfinite hfinite' (normal_unpack _) (normal_unpack _)
    exact (hvalue.atLeast (rounded_nonneg hnonneg)).mono (rounded_mono (add_le_add hle hle'))

/-- A quotient by a positive number. -/
theorem AtLeast.div (h : AtLeast x q) (hq : 0 ≤ q) (hy : y.isFinite = true) (hpos : 0 < value y) :
    AtLeast (x / y) (rounded (q / value y)) := by
  rcases h with hinfinite | ⟨hfinite, hle⟩
  · left
    show (Float.Model.pack (UnpackedFloat.div Format.binary64 x.toModel.unpack
      y.toModel.unpack)).unpack = _
    obtain ⟨m, e, hm, hunpack⟩ := exists_unpack_of_pos hy hpos
    rw [hinfinite, hunpack]
    exact unpack_pack trivial
  · -- the finite case is that of the quotient of the values
    exact (atLeast_div hfinite hy (hq.trans hle) hpos).mono
      (rounded_mono (div_le_div_of_nonneg_right hle hpos.le))

end AtLeast

/-! ## Weighted means -/

section Weighted

variable {c v w x y : Float}

/-- A score of one half or more, times its weight. -/
theorem AtLeast.half_mul (h : AtLeast c (1 / 2)) (hx : x.isFinite = true)
    (hlow : 2 ^ (-1021 : ℤ) ≤ value x) : AtLeast (c * x) (value x / 2) := by
  have hpos : 0 < value x := (two_zpow_pos _).trans_le hlow
  have hproduct := h.mul (by norm_num) hx hpos
  rwa [one_div_mul_eq_div, rounded_half hlow, rounded_value] at hproduct

/-- Two weighted scores against the sum of their weights. -/
theorem AtLeast.half_add (hv : AtLeast v (value x / 2)) (hw : AtLeast w (value y / 2))
    (hx : 0 ≤ value x) (hy : 0 ≤ value y) (hlow : 2 ^ (-1021 : ℤ) ≤ value x + value y)
    (hsum : value (x + y) = rounded (value x + value y)) : AtLeast (v + w) (value (x + y) / 2) := by
  have hadd := hv.add hw (div_nonneg hx zero_le_two) (div_nonneg hy zero_le_two)
  rwa [← add_div, rounded_half hlow, ← hsum] at hadd

/-- The weighted scores divided by the weights. -/
theorem AtLeast.half_div (h : AtLeast v (value x / 2)) (hx : x.isFinite = true)
    (hpos : 0 < value x) : AtLeast (v / x) (1 / 2) := by
  have hhalf : rounded (1 / 2) = 1 / 2 :=
    rounded_eq_self ⟨1, -1, by norm_num, by norm_num, by norm_num⟩
  have hdiv := h.div (div_nonneg hpos.le zero_le_two) hx hpos
  rwa [div_div_cancel_left' hpos.ne', ← one_div, hhalf] at hdiv

end Weighted

end SpeechTranscript.Double
