import SpeechTranscript.Proofs.Double.Value

/-!
# Core's rounding of doubles

Core rounds by shifting a mantissa to the right, with two more bits that keep track of what falls
off. These bits say enough about the number at hand to round it: the result of core's `round` is the
number of `rounded`, in normal form.

* `hasValue_round`: what core's `round` gives.
* `HasValue.pack`: packing the result keeps the number, unless it is too large for a double.
-/

namespace SpeechTranscript.Double

open Float.Model Float.Model.UnpackedFloat

/-! ## The bits that fall off -/

/-- What the round bit and the sticky bit say of the part of a number behind its mantissa. -/
def Tail : (round sticky : Bool) → ℚ → Prop
  | false, false, t => t = 0
  | false, true, t => 0 < t ∧ t < 1 / 2
  | true, false, t => t = 1 / 2
  | true, true, t => 1 / 2 < t ∧ t < 1

/-- An extended mantissa keeps track of a number. -/
def Tracks (em : ExtendedMantissa) (q : ℚ) : Prop :=
  Tail em.roundBit em.stickyBit (q - em.mantissa)

theorem tracks_exact (m : ℕ) : Tracks (.ofMantissaAndAccuracy m .exact) m :=
  sub_self (m : ℚ)

theorem mantissa_ofMantissaAndAccuracy (m : ℕ) (accuracy : Accuracy) :
    (ExtendedMantissa.ofMantissaAndAccuracy m accuracy).mantissa = m := by
  unfold ExtendedMantissa.ofMantissaAndAccuracy
  split <;> rfl

theorem Tail.bounds {r s : Bool} {t : ℚ} (h : Tail r s t) : 0 ≤ t ∧ t < 1 := by
  cases r <;> cases s <;> simp only [Tail] at h <;> constructor <;> linarith

theorem Tracks.floor_eq {em : ExtendedMantissa} {q : ℚ} (h : Tracks em q) : ⌊q⌋ = em.mantissa := by
  obtain ⟨hlow, hhigh⟩ := h.bounds
  rw [Int.floor_eq_iff]
  push_cast
  constructor <;> linarith

/-- Rounding by the two bits is rounding to the nearest whole number. -/
theorem Tracks.roundedMantissa_eq {em : ExtendedMantissa} {q : ℚ} (h : Tracks em q) :
    (em.roundedMantissa : ℤ) = nearest q := by
  have hfloor := h.floor_eq
  have hfract : Int.fract q = q - em.mantissa := by rw [Int.fract, hfloor, Int.cast_natCast]
  unfold nearest
  rw [hfract, hfloor]
  obtain ⟨m, r, s⟩ := em
  unfold Tracks at h
  -- one case for each of the four positions between two whole numbers
  cases r <;> cases s <;> simp only [Tail] at h <;>
    simp only [ExtendedMantissa.roundedMantissa, ExtendedMantissa.accuracy,
      Accuracy.roundToNearestEven]
  · rw [if_pos (by linarith)]
  · rw [if_pos h.2]
  · rw [if_neg (by linarith), if_neg (by linarith)]
    push_cast
    rfl
  · rw [if_neg (by linarith), if_pos h.1]
    push_cast
    rfl

/-- A shift by one place halves the number. -/
theorem Tracks.shiftRightOne {em : ExtendedMantissa} {q : ℚ} (h : Tracks em q) :
    Tracks em.shiftRightOne (q / 2) := by
  obtain ⟨m, r, s⟩ := em
  have hparts : (2 : ℚ) * (m / 2 : ℕ) + (m % 2 : ℕ) = m := by
    exact_mod_cast Nat.div_add_mod m 2
  unfold Tracks at h ⊢
  simp only [ExtendedMantissa.shiftRightOne]
  have hlast : m % 2 = 0 ∨ m % 2 = 1 := by omega
  rcases hlast with hlast | hlast <;> rw [hlast] at hparts ⊢ <;> push_cast at hparts <;>
    cases r <;> cases s <;> simp only [Tail, bne_self_eq_false, Bool.or_false, Bool.or_true,
      Bool.or_self, show (1 != 0) = true from rfl] at h ⊢ <;>
    first | linarith | (constructor <;> linarith)

/-- A shift to the right tracks the quotient. The bits that drop out are kept in the tail. -/
theorem Tracks.shiftRight {em : ExtendedMantissa} {q : ℚ} (h : Tracks em q) (k : ℕ) :
    Tracks (em >>> k) (q / 2 ^ k) := by
  induction k with
  | zero =>
    rw [pow_zero, div_one]
    exact h
  | succ k ih =>
    rw [pow_succ, ← div_div]
    exact ih.shiftRightOne

/-! ## Core's rounding -/

/-- A number with the sign of a double. -/
def signed : Sign → ℚ → ℚ
  | .positive, q => q
  | .negative, q => -q

/-- The value of a finite double is its mantissa at its exponent, with its sign. -/
theorem unpackedValue_finite {sign : Sign} {m : ℕ} {e : ℤ} (hm : 0 < m) :
    unpackedValue (.finite sign m e hm) = signed sign (m * 2 ^ e) := by
  cases sign with
  | positive => rfl
  | negative => simp [unpackedValue, Sign.apply, signed]

/-- A zero or a normal form, except that it may be too large for a double, and its number. -/
structure HasValue (u : UnpackedFloat) (q : ℚ) : Prop where
  finite : u.isFinite = true
  normal : ∀ {sign m e hm}, u = .finite sign m e hm → NormalPair m e
  value_eq : unpackedValue u = q

theorem hasValue_zero (sign : Sign) : HasValue (.zero sign) 0 :=
  ⟨rfl, nofun, rfl⟩

/-- The finest grid is that of the least exponent; others keep 53 digits. -/
theorem targetExponent_eq_max (total : ℤ) :
    Format.binary64.targetExponent total = max (total - 53) (-1074) := by
  rw [Float.Model.Format.targetExponent, show Format.binary64.minExponent = -1074 by decide]
  rfl

/-- The grid that core rounds to. -/
theorem targetExponent_eq {m : ℕ} {e : ℤ} {q : ℚ} (hm : 0 < m) (hlow : m ≤ q) (hhigh : q < m + 1) :
    Format.binary64.targetExponent (totalExponent m e) = gridExponent (q * 2 ^ e) := by
  have hpos : 0 < q * 2 ^ e :=
    mul_pos (lt_of_lt_of_le (by exact_mod_cast hm) hlow) (two_zpow_pos e)
  -- the leading bit of the mantissa is that of the number
  have hlog : Int.log 2 (q * 2 ^ e) = m.log2 + e := by
    have hbelow : (2 : ℚ) ^ m.log2 ≤ m := by exact_mod_cast Nat.log2_self_le hm.ne'
    have habove : (m : ℚ) + 1 ≤ 2 ^ (m.log2 + 1) := by exact_mod_cast Nat.lt_log2_self (n := m)
    have hsplit : ∀ k : ℕ, (2 : ℚ) ^ ((k : ℤ) + e) = 2 ^ k * 2 ^ e := fun k => by
      rw [zpow_add₀ (by norm_num : (2 : ℚ) ≠ 0), zpow_natCast]
    have hle : m.log2 + e ≤ Int.log 2 (q * 2 ^ e) := by
      refine (Int.zpow_le_iff_le_log (by norm_num : 1 < 2) hpos).1 ?_
      push_cast
      rw [hsplit]
      exact mul_le_mul_of_nonneg_right (hbelow.trans hlow) (two_zpow_pos e).le
    have hlt : Int.log 2 (q * 2 ^ e) < ((m.log2 + 1 : ℕ) : ℤ) + e := by
      refine (Int.lt_zpow_iff_log_lt (by norm_num : 1 < 2) hpos).1 ?_
      push_cast
      rw [show (m.log2 : ℤ) + 1 + e = ((m.log2 + 1 : ℕ) : ℤ) + e by push_cast; ring, hsplit]
      exact mul_lt_mul_of_pos_right (hhigh.trans_le habove) (two_zpow_pos e)
    push_cast at hlt
    omega
  unfold gridExponent
  rw [hlog, targetExponent_eq_max, totalExponent]
  omega

/-- A mantissa of at most 53 digits, and `2 ^ 53` itself, loses nothing in core's second shift. -/
theorem shiftToTargetExponent_exact {r : ℕ} {e : ℤ} (hr : r ≤ 2 ^ 53) (he : -1074 ≤ e)
    (hfull : 2 ^ 52 ≤ r ∨ e = -1074) :
    ∃ m f, shiftToTargetExponent Format.binary64 r e .exact = (⟨m, false, false⟩, f) ∧
      (m : ℚ) * 2 ^ f = r * 2 ^ e ∧ NormalPair m f := by
  have htarget : Format.binary64.targetExponent (totalExponent r e) =
      max ((r.log2 : ℤ) + e - 52) (-1074) := by
    rw [targetExponent_eq_max, totalExponent]
    omega
  rcases hr.lt_or_eq with hlt | rfl
  · have hlog : r.log2 ≤ 52 := by
      rcases Nat.eq_zero_or_pos r with rfl | hpos
      · simp
      · have := (Nat.log2_lt hpos.ne').2 hlt
        omega
    have hzero : (Format.binary64.targetExponent (totalExponent r e) - e).toNat = 0 := by
      rw [htarget]
      omega
    refine ⟨r, e, ?_, rfl, hlt, he, hfull⟩
    rw [shiftToTargetExponent, shiftToExponent, hzero]
    simp [ExtendedMantissa.ofMantissaAndAccuracy, HShiftRight.hShiftRight, Nat.repeat]
  · -- one digit too many, and the last one is zero
    have hone : (Format.binary64.targetExponent (totalExponent (2 ^ 53) e) - e).toNat = 1 := by
      rw [htarget, Nat.log2_two_pow]
      push_cast
      omega
    refine ⟨2 ^ 52, e + 1, ?_, ?_, by norm_num, by omega, Or.inl le_rfl⟩
    · rw [shiftToTargetExponent, shiftToExponent, hone]
      rfl
    · rw [zpow_add₀ (by norm_num : (2 : ℚ) ≠ 0)]
      push_cast
      ring

section RoundWithAccuracy

variable {m : ℕ} {e : ℤ} {accuracy : Accuracy} {q : ℚ}

/-- Core's first shift goes to the grid. What it leaves is rounded to the nearest point of it. -/
theorem shiftToTargetExponent_grid
    (htarget : Format.binary64.targetExponent (totalExponent m e) = gridExponent (q * 2 ^ e))
    (htracks : Tracks (.ofMantissaAndAccuracy m accuracy) q) (he : e ≤ gridExponent (q * 2 ^ e)) :
    ∃ em, shiftToTargetExponent Format.binary64 m e accuracy = (em, gridExponent (q * 2 ^ e)) ∧
      snapped (q * 2 ^ e) = em.roundedMantissa * 2 ^ gridExponent (q * 2 ^ e) := by
  generalize hgrid : gridExponent (q * 2 ^ e) = t at htarget he
  have hshift : e + ((t - e).toNat : ℤ) = t := by omega
  refine ⟨ExtendedMantissa.ofMantissaAndAccuracy m accuracy >>> (t - e).toNat, ?_, ?_⟩
  · rw [shiftToTargetExponent, htarget, shiftToExponent, hshift]
  · -- the bits that drop out are the part behind the point on the grid
    have hscaled : q / 2 ^ (t - e).toNat = q * 2 ^ e / 2 ^ t := by
      rw [← hshift, zpow_add₀ (by norm_num : (2 : ℚ) ≠ 0), zpow_natCast, hshift]
      field_simp
    have hnear := (htracks.shiftRight (t - e).toNat).roundedMantissa_eq
    rw [snapped, hgrid, ← hscaled, ← hnear]
    norm_cast

/-- Core rounds what a mantissa keeps track of to the nearest point of its grid, if it finds the
grid and that is not finer than the mantissa. -/
theorem hasValue_roundWithAccuracy_of_target (sign : Sign) (hq : 0 < q)
    (htarget : Format.binary64.targetExponent (totalExponent m e) = gridExponent (q * 2 ^ e))
    (htracks : Tracks (.ofMantissaAndAccuracy m accuracy) q) (he : e ≤ gridExponent (q * 2 ^ e)) :
    HasValue (roundWithAccuracy Format.binary64 sign m e accuracy)
      (signed sign (snapped (q * 2 ^ e))) := by
  obtain ⟨em, hfirst, hsnapped⟩ := shiftToTargetExponent_grid htarget htracks he
  -- the second shift only takes back a carry
  obtain ⟨m', f, hsecond, hsame, hnormal⟩ := shiftToTargetExponent_exact
    (le_of_snapped_eq hsnapped) (le_gridExponent _)
    (full_of_snapped_eq (mul_pos hq (two_zpow_pos e)) hsnapped)
  unfold roundWithAccuracy
  rw [hfirst]
  simp only [hsecond]
  rw [hsnapped, ← hsame]
  split
  · rename_i hzero
    subst hzero
    cases sign <;> simpa [signed] using hasValue_zero _
  · rename_i hpos
    exact ⟨rfl, fun h => by cases h; exact hnormal, unpackedValue_finite _⟩

/-- Core rounds what a mantissa keeps track of to the nearest point of its grid, if the grid is not
finer than the mantissa. -/
theorem hasValue_roundWithAccuracy (sign : Sign) (hm : 0 < m)
    (htracks : Tracks (.ofMantissaAndAccuracy m accuracy) q) (he : e ≤ gridExponent (q * 2 ^ e)) :
    HasValue (roundWithAccuracy Format.binary64 sign m e accuracy)
      (signed sign (snapped (q * 2 ^ e))) := by
  obtain ⟨hlow, hhigh⟩ := htracks.bounds
  rw [mantissa_ofMantissaAndAccuracy] at hlow hhigh
  have hpos : (0 : ℚ) < m := by exact_mod_cast hm
  exact hasValue_roundWithAccuracy_of_target sign (by linarith)
    (targetExponent_eq hm (by linarith) (by linarith)) htracks he

end RoundWithAccuracy

/-- A mantissa made longer stands for the same number at a lower exponent. -/
theorem shiftLeft_mul_zpow (m : ℕ) (e t : ℤ) :
    ((m <<< (e - t).toNat : ℕ) : ℚ) * 2 ^ (e - ((e - t).toNat : ℤ)) = m * 2 ^ e := by
  rw [Nat.shiftLeft_eq, Nat.cast_mul, mul_assoc]
  congr 1
  push_cast
  rw [← zpow_natCast, ← zpow_add₀ (by norm_num : (2 : ℚ) ≠ 0)]
  congr 1
  omega

/-- What core's rounding gives. -/
theorem hasValue_round (sign : Sign) {m : ℕ} (hm : 0 < m) (e : ℤ) :
    HasValue (UnpackedFloat.round Format.binary64 sign m e)
      (signed sign (snapped (m * 2 ^ e))) := by
  have htarget := targetExponent_eq (e := e) hm le_rfl (by linarith : (m : ℚ) < m + 1)
  set t := gridExponent (m * 2 ^ e) with ht
  -- the mantissa is made longer where it is shorter than the grid asks for
  have hsame := shiftLeft_mul_zpow m e t
  have hpos : 0 < m <<< (e - t).toNat := by
    rw [Nat.shiftLeft_eq]
    positivity
  have hround := hasValue_roundWithAccuracy sign hpos (tracks_exact _)
    (e := e - ((e - t).toNat : ℤ)) (by rw [hsame, ← ht]; omega)
  rw [hsame] at hround
  unfold UnpackedFloat.round
  rw [htarget]
  exact hround

/-- What core gives for a whole number of units, with its sign. -/
theorem hasValue_normalize (m e : ℤ) (zeroSign : Sign) :
    HasValue (UnpackedFloat.normalize Format.binary64 m e zeroSign) (rounded (m * 2 ^ e)) := by
  unfold UnpackedFloat.normalize
  -- the sign is taken off before rounding and put back after it
  rcases lt_trichotomy m 0 with hneg | rfl | hpos
  · rw [show compare m 0 = .lt from compare_lt_iff_lt.2 hneg]
    have habs : (((-m).toNat : ℕ) : ℚ) = -m := by
      exact_mod_cast Int.toNat_of_nonneg (by omega : 0 ≤ -m)
    have hprod : (m : ℚ) * 2 ^ e < 0 :=
      mul_neg_of_neg_of_pos (by exact_mod_cast hneg) (two_zpow_pos e)
    have hround := hasValue_round .negative (m := (-m).toNat) (by omega) e
    rwa [habs, neg_mul, signed, ← rounded_of_nonneg (by linarith), rounded_neg, neg_neg] at hround
  · rw [show compare (0 : ℤ) 0 = .eq from rfl, Int.cast_zero, zero_mul, rounded_zero]
    exact hasValue_zero _
  · rw [show compare m 0 = .gt from compare_gt_iff_gt.2 hpos]
    have habs : ((m.toNat : ℕ) : ℚ) = m := by exact_mod_cast Int.toNat_of_nonneg hpos.le
    have hprod : 0 < (m : ℚ) * 2 ^ e := mul_pos (by exact_mod_cast hpos) (two_zpow_pos e)
    have hround := hasValue_round .positive (m := m.toNat) (by omega) e
    rwa [habs, signed, ← rounded_of_nonneg hprod.le] at hround

/-! ## Packing -/

/-- What is small enough for a double is in normal form. -/
theorem HasValue.normal_of_lt {u : UnpackedFloat} {q : ℚ} (h : HasValue u q) (hq : |q| < 2 ^ 1024) :
    Normal u := by
  cases u with
  | infinity sign => trivial
  | notANumber => trivial
  | zero sign => trivial
  | finite sign m e hm =>
    have hpair := h.normal rfl
    refine ⟨hpair, Int.not_lt.1 fun hlarge => ?_⟩
    have hfull : 2 ^ 52 ≤ m := hpair.full.resolve_right (by omega)
    have hval : |q| = m * 2 ^ e := by
      rw [← h.value_eq, unpackedValue_finite]
      cases sign with
      | positive => exact abs_of_nonneg (mul_nonneg (by positivity) (two_zpow_pos e).le)
      | negative =>
        rw [signed, abs_neg, abs_of_nonneg (mul_nonneg (by positivity) (two_zpow_pos e).le)]
    -- a full mantissa at a greater exponent is too large
    have hge : (2 : ℚ) ^ (1024 : ℕ) ≤ m * 2 ^ e := by
      calc (2 : ℚ) ^ (1024 : ℕ) = 2 ^ 52 * 2 ^ (972 : ℤ) := by
            rw [show (972 : ℤ) = ((972 : ℕ) : ℤ) from rfl, zpow_natCast, ← pow_add]
        _ ≤ m * 2 ^ e := mul_le_mul (by exact_mod_cast hfull)
            (zpow_le_zpow_right₀ (by norm_num) (by omega)) (two_zpow_pos _).le (by positivity)
    rw [hval] at hq
    exact absurd hq hge.not_gt

/-- A result that is small enough is the double with its number. -/
theorem HasValue.pack {u : UnpackedFloat} {q : ℚ} (h : HasValue u q) (hq : |q| < 2 ^ 1024) :
    (Float.ofModel (.pack u)).isFinite = true ∧ value (.ofModel (.pack u)) = q := by
  have hunpack := unpack_pack (h.normal_of_lt hq)
  constructor
  · show (Float.Model.pack u).unpack.isFinite = true
    rw [hunpack]
    exact h.finite
  · show unpackedValue (Float.Model.pack u).unpack = q
    rw [hunpack]
    exact h.value_eq

end SpeechTranscript.Double
