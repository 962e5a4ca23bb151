import SpeechTranscript.Proofs.Decimal.Rounding

/-!
# Remainders of doubles

The remainder of two doubles is a double itself: at the lower one of the two exponents it has no
more digits than the number of that exponent. So nothing is lost in it.

* `value_remainder`: the remainder is what whole multiples of the divisor leave.
-/

namespace SpeechTranscript.Decimal

open Double Float.Model Float.Model.UnpackedFloat

/-! ## Nothing at any exponent -/

theorem shiftRight_nothing (k : ℕ) :
    (⟨0, false, false⟩ : ExtendedMantissa) >>> k = ⟨0, false, false⟩ := by
  induction k with
  | zero => rfl
  | succ k ih =>
    show ((⟨0, false, false⟩ : ExtendedMantissa) >>> k).shiftRightOne = _
    rw [ih]
    rfl

/-- A mantissa of zero gives the zero with its sign, whatever the exponent. -/
theorem round_nothing (sign : Sign) (e : ℤ) :
    UnpackedFloat.round Format.binary64 sign 0 e = .zero sign := by
  -- a shift of nothing is nothing, whichever exponent it is shifted to
  have hshift : ∀ e, ∃ f, shiftToTargetExponent Format.binary64 0 e .exact =
      (⟨0, false, false⟩, f) := by
    intro e
    refine ⟨_, Prod.ext ?_ rfl⟩
    exact shiftRight_nothing _
  have hdecrease : ∀ t, (decreaseExponent 0 e t).1 = 0 := fun t => Nat.zero_shiftLeft _
  unfold UnpackedFloat.round roundWithAccuracy
  dsimp only
  rw [hdecrease]
  obtain ⟨f, hf⟩ := hshift (decreaseExponent 0 e
    (Format.binary64.targetExponent (totalExponent 0 e))).2
  obtain ⟨f', hf'⟩ := hshift f
  rw [hf]
  have hnone : (⟨0, false, false⟩ : ExtendedMantissa).roundedMantissa = 0 := rfl
  simp only [hnone, hf']
  rfl

/-- Nothing is zero at any exponent. -/
theorem value_ofDyadic_nothing (negative : Bool) (e : ℤ) :
    (ofDyadic negative 0 e).isFinite = true ∧ value (ofDyadic negative 0 e) = 0 := by
  have hsame : ofDyadic negative 0 e = ofDyadic negative 0 0 := by
    rw [ofDyadic, ofDyadic, round_nothing, round_nothing]
  obtain ⟨hfinite, hvalue⟩ := ofDyadic_zero negative
  rw [hsame]
  refine ⟨hfinite, hvalue.trans ?_⟩
  cases negative
  · rfl
  · exact neg_zero

/-! ## Remainders -/

/-- A mantissa made longer, down to a lower exponent. -/
theorem shiftLeft_mul_pow_of_le (m : ℕ) {low e : ℤ} (h : low ≤ e) :
    ((m <<< (e - low).toNat : ℕ) : ℚ) * 2 ^ low = m * 2 ^ e := by
  have hsame := shiftLeft_mul_zpow m e low
  rwa [show e - ((e - low).toNat : ℤ) = low by omega] at hsame

/-- The rest of a division of whole numbers of units. -/
theorem mod_mul_eq_sub_floor (a b : ℕ) {unit : ℚ} (hunit : 0 < unit) :
    ((a % b : ℕ) : ℚ) * unit = a * unit - b * unit * ⌊a * unit / (b * unit)⌋₊ := by
  have hparts : (b : ℚ) * (a / b : ℕ) + (a % b : ℕ) = a := by exact_mod_cast Nat.div_add_mod a b
  rw [mul_div_mul_right _ _ hunit.ne', Nat.floor_div_eq_div]
  linear_combination unit * hparts

/-- What a double can hold is made of its parts as it is. -/
theorem value_ofDyadic_of_onGrid (negative : Bool) (m : ℕ) (e : ℤ) (h : OnGrid (m * 2 ^ e))
    (hroom : (m : ℚ) * 2 ^ e < 2 ^ 1024) : (ofDyadic negative m e).isFinite = true ∧
      value (ofDyadic negative m e) = signed (signOf negative) (m * 2 ^ e) := by
  rcases Nat.eq_zero_or_pos m with rfl | hm
  · obtain ⟨hfinite, hvalue⟩ := value_ofDyadic_nothing negative e
    refine ⟨hfinite, hvalue.trans ?_⟩
    rw [Nat.cast_zero, zero_mul]
    cases negative
    · rfl
    · exact neg_zero.symm
  · have hself := snapped_eq_self (mul_nonneg (Nat.cast_nonneg m) (two_zpow_pos e).le) h
    have hvalue := value_ofDyadic negative hm (hself.symm ▸ hroom)
    rwa [hself] at hvalue

section Remainder

variable {m n : ℕ} {e f : ℤ}

/-- At the lower one of two exponents a rest has no more digits than one of the two mantissas. -/
theorem mod_shiftLeft_lt (e f : ℤ) (hm : m < 2 ^ 53) (hn : n < 2 ^ 53) (hpos : 0 < n) :
    (m <<< (e - min e f).toNat) % (n <<< (f - min e f).toNat) < 2 ^ 53 := by
  rcases le_total e f with hle | hle
  · rw [min_eq_left hle, sub_self, Int.toNat_zero, Nat.shiftLeft_zero]
    exact (Nat.mod_le _ _).trans_lt hm
  · rw [min_eq_right hle, sub_self, Int.toNat_zero, Nat.shiftLeft_zero]
    exact (Nat.mod_lt _ hpos).trans hn

/-- The remainder of two doubles is a double: it is on the finer of their grids and less than the
divisor. -/
theorem onGrid_mod (hm : NormalPair m e) (hn : NormalPair n f) (hpos : 0 < n) :
    OnGrid ((m <<< (e - min e f).toNat % n <<< (f - min e f).toNat : ℕ) * 2 ^ min e f) := by
  refine ⟨_, min e f, ?_, le_min hm.low hn.low, by rw [Int.cast_natCast]⟩
  rw [Nat.abs_cast]
  exact_mod_cast mod_shiftLeft_lt e f hm.lt hn.lt hpos

variable {x y : Float}

/-- The remainder of two doubles is what whole multiples of the second leave of the first. -/
theorem value_remainder (hx : x.isFinite = true) (hy : y.isFinite = true) (hnonneg : 0 ≤ value x)
    (hpos : 0 < value y) : (remainder x y).isFinite = true ∧
      value (remainder x y) = value x - value y * ⌊value x / value y⌋₊ := by
  obtain ⟨negative, m, e, hexact, hvalue, hzero⟩ := exists_exact_of_nonneg hx hnonneg
  obtain ⟨negative', n, f, hexact', hvalue', -⟩ := exists_exact_of_nonneg hy hpos.le
  have hn : 0 < n := by
    refine Nat.pos_of_ne_zero fun hnone => ?_
    rw [hvalue', hnone, Nat.cast_zero, zero_mul] at hpos
    exact lt_irrefl 0 hpos
  have hrest := mod_mul_eq_sub_floor (m <<< (e - min e f).toNat) (n <<< (f - min e f).toNat)
    (two_zpow_pos (min e f))
  rw [shiftLeft_mul_pow_of_le m (min_le_left e f), shiftLeft_mul_pow_of_le n (min_le_right e f),
    ← hvalue, ← hvalue'] at hrest
  rw [remainder, hexact, hexact']
  dsimp only
  rw [if_neg hn.ne', ← hrest]
  rcases Nat.eq_zero_or_pos m with hm | hm
  · rw [hm, Nat.zero_shiftLeft, Nat.zero_mod, Nat.cast_zero, zero_mul]
    exact value_ofDyadic_nothing negative _
  · have hpositive : negative = false :=
      Bool.eq_false_of_not_eq_true fun hnegative => hm.ne' (hzero hnegative)
    obtain ⟨hpair, hhigh⟩ := normalPair_of_exact negative hexact hm
    obtain ⟨hpair', -⟩ := normalPair_of_exact negative' hexact' hn
    -- a rest is no more than what is divided
    have hle : ((m <<< (e - min e f).toNat % n <<< (f - min e f).toNat : ℕ) : ℚ) * 2 ^ min e f ≤
        m * 2 ^ e := by
      rw [← shiftLeft_mul_pow_of_le m (min_le_left e f)]
      exact mul_le_mul_of_nonneg_right (by exact_mod_cast Nat.mod_le _ _) (two_zpow_pos _).le
    rw [hpositive]
    exact value_ofDyadic_of_onGrid false _ _ (onGrid_mod hpair hpair' hn)
      (hle.trans_lt (hpair.mul_pow_lt_of_le hhigh))

end Remainder

end SpeechTranscript.Decimal
