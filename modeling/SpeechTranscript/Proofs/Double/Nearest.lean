import Mathlib

/-!
# Rounding on the numbers

The rounding of a double operation, as a function on rational numbers: the result is the nearest
point of a grid, a half going to the even point. The grid has 53 binary digits below the leading one
of the number and never gets finer than `2 ^ -1074`. How large a double may get is not looked at
here.

* `rounded_mono`: rounding keeps the order.
* `rounded_eq_self`: numbers on their own grid stay.
-/

namespace SpeechTranscript.Double

/-! ## To whole numbers -/

/-- The whole number nearest to a number, a half going to the even one. -/
def nearest (q : ℚ) : ℤ :=
  if Int.fract q < 1 / 2 then ⌊q⌋
  else if 1 / 2 < Int.fract q then ⌊q⌋ + 1
  else ⌊q⌋ + ⌊q⌋ % 2

theorem floor_le_nearest (q : ℚ) : ⌊q⌋ ≤ nearest q := by
  unfold nearest
  split_ifs <;> omega

/-- Rounding to a whole number does not go above the one after the floor. -/
theorem nearest_le_floor_add_one (q : ℚ) : nearest q ≤ ⌊q⌋ + 1 := by
  unfold nearest
  split_ifs <;> omega

/-- A whole number stays. -/
@[simp] theorem nearest_intCast (n : ℤ) : nearest n = n := by
  unfold nearest
  rw [Int.fract_intCast, if_pos (by norm_num), Int.floor_intCast]

/-- Numbers with the same whole part are told apart by their fractions only. -/
theorem nearest_le_of_floor_eq {a b : ℚ} (hfloor : ⌊a⌋ = ⌊b⌋) (hfract : Int.fract a ≤ Int.fract b) :
    nearest a ≤ nearest b := by
  unfold nearest
  rw [hfloor]
  split_ifs <;> first | omega | (exfalso; linarith)

/-- Rounding to whole numbers keeps the order. -/
theorem nearest_mono {a b : ℚ} (h : a ≤ b) : nearest a ≤ nearest b := by
  rcases (Int.floor_le_floor h).lt_or_eq with hlt | heq
  · -- a whole number lies between `a` and `b`
    calc nearest a ≤ ⌊a⌋ + 1 := nearest_le_floor_add_one a
      _ ≤ ⌊b⌋ := hlt
      _ ≤ nearest b := floor_le_nearest b
  · refine nearest_le_of_floor_eq heq ?_
    have ha := Int.floor_add_fract a
    have hb := Int.floor_add_fract b
    rw [heq] at ha
    linarith

/-! ## To the grid of a number -/

/-- Powers of two are positive, those with negative exponents included. -/
theorem two_zpow_pos (e : ℤ) : (0 : ℚ) < 2 ^ e := zpow_pos (by norm_num) e

/-- The exponent of the grid that a positive number is rounded to. -/
def gridExponent (q : ℚ) : ℤ := max (Int.log 2 q - 52) (-1074)

/-- The point of its grid nearest to a number that is not negative. -/
def snapped (q : ℚ) : ℚ := nearest (q / 2 ^ gridExponent q) * 2 ^ gridExponent q

/-- No grid is finer than that of the least double. -/
theorem le_gridExponent (q : ℚ) : -1074 ≤ gridExponent q := le_max_right _ _

theorem gridExponent_mono {a b : ℚ} (ha : 0 < a) (h : a ≤ b) : gridExponent a ≤ gridExponent b :=
  max_le_max (Int.sub_le_sub_right (Int.log_mono_right ha h) 52) le_rfl

/-- A number has at most 53 binary digits above its grid. -/
theorem lt_pow_gridExponent (q : ℚ) : q < 2 ^ (gridExponent q + 53) := by
  refine (Int.lt_zpow_succ_log_self (by norm_num : 1 < 2) q).trans_le ?_
  refine zpow_le_zpow_right₀ (by norm_num) ?_
  have := le_max_left (Int.log 2 q - 52) (-1074)
  unfold gridExponent
  omega

/-- Every power of two that is not finer than the grid is a point of it. -/
theorem pow_div_pow_eq_intCast {k e : ℤ} (h : e ≤ k) :
    (2 : ℚ) ^ k / 2 ^ e = ((2 ^ (k - e).toNat : ℤ) : ℚ) := by
  rw [← zpow_sub₀ (by norm_num : (2 : ℚ) ≠ 0)]
  have hk : k - e = ((k - e).toNat : ℤ) := (Int.toNat_of_nonneg (by omega)).symm
  conv_lhs => rw [hk, zpow_natCast]
  push_cast
  rfl

@[simp] theorem snapped_zero : snapped 0 = 0 := by
  rw [snapped, zero_div, show nearest 0 = 0 from nearest_intCast 0, Int.cast_zero, zero_mul]

/-- Rounding does not go up past a power of two that is on the grid. -/
theorem snapped_le_pow {q : ℚ} {k : ℤ} (hk : gridExponent q ≤ k) (h : q ≤ 2 ^ k) :
    snapped q ≤ 2 ^ k := by
  have hpos := two_zpow_pos (gridExponent q)
  -- a power of two on the grid is a whole number of its steps, so it is not passed
  have hle : q / 2 ^ gridExponent q ≤ ((2 ^ (k - gridExponent q).toNat : ℤ) : ℚ) := by
    rw [← pow_div_pow_eq_intCast hk]
    exact div_le_div_of_nonneg_right h hpos.le
  have hnear := nearest_mono hle
  rw [nearest_intCast] at hnear
  rw [snapped, ← le_div_iff₀ hpos, pow_div_pow_eq_intCast hk]
  exact_mod_cast hnear

/-- Rounding does not go down past one either. -/
theorem pow_le_snapped {q : ℚ} {k : ℤ} (hk : gridExponent q ≤ k) (h : 2 ^ k ≤ q) :
    2 ^ k ≤ snapped q := by
  have hpos := two_zpow_pos (gridExponent q)
  have hle : ((2 ^ (k - gridExponent q).toNat : ℤ) : ℚ) ≤ q / 2 ^ gridExponent q := by
    rw [← pow_div_pow_eq_intCast hk]
    exact div_le_div_of_nonneg_right h hpos.le
  have hnear := nearest_mono hle
  rw [nearest_intCast] at hnear
  rw [snapped, ← div_le_iff₀ hpos, pow_div_pow_eq_intCast hk]
  exact_mod_cast hnear

theorem snapped_nonneg {q : ℚ} (h : 0 ≤ q) : 0 ≤ snapped q := by
  have hpos := two_zpow_pos (gridExponent q)
  have hnear : nearest 0 ≤ nearest (q / 2 ^ gridExponent q) := nearest_mono (by positivity)
  rw [show nearest 0 = 0 from nearest_intCast 0] at hnear
  exact mul_nonneg (by exact_mod_cast hnear) hpos.le

/-- Rounding to the grid keeps the order, although the two numbers may have different grids. -/
theorem snapped_mono {a b : ℚ} (ha : 0 ≤ a) (h : a ≤ b) : snapped a ≤ snapped b := by
  rcases ha.lt_or_eq with hpos | rfl
  · rcases (gridExponent_mono hpos h).lt_or_eq with hlt | heq
    · -- the grids differ, so a power of two lies between `a` and `b`
      have hb : gridExponent b = Int.log 2 b - 52 := by
        have := le_gridExponent a
        unfold gridExponent at *
        omega
      have hup : a ≤ 2 ^ (gridExponent b + 52) := by
        refine (lt_pow_gridExponent a).le.trans (zpow_le_zpow_right₀ (by norm_num) (by omega))
      have hdown : 2 ^ (gridExponent b + 52) ≤ b := by
        have := Int.zpow_log_le_self (by norm_num : 1 < 2) (hpos.trans_le h)
        rwa [show gridExponent b + 52 = Int.log 2 b by omega]
      exact (snapped_le_pow (by omega) hup).trans (pow_le_snapped (by omega) hdown)
    · -- one grid for both, so the whole numbers of steps are compared
      unfold snapped
      rw [heq]
      have hgrid := two_zpow_pos (gridExponent b)
      refine mul_le_mul_of_nonneg_right ?_ hgrid.le
      exact_mod_cast nearest_mono (div_le_div_of_nonneg_right h hgrid.le)
  · rw [snapped_zero]
    exact snapped_nonneg h

section Multiple

variable {q : ℚ} {r : ℕ}

/-- The multiple of the grid that a number is rounded to is at most `2 ^ 53`. -/
theorem le_of_snapped_eq (h : snapped q = r * 2 ^ gridExponent q) : r ≤ 2 ^ 53 := by
  have hle := snapped_le_pow (k := gridExponent q + 53) (by omega) (lt_pow_gridExponent q).le
  rw [h, zpow_add₀ (by norm_num : (2 : ℚ) ≠ 0), mul_comm] at hle
  exact_mod_cast le_of_mul_le_mul_left hle (two_zpow_pos _)

/-- That multiple has 53 binary digits, unless the grid is the finest one. -/
theorem full_of_snapped_eq (hq : 0 < q) (h : snapped q = r * 2 ^ gridExponent q) :
    2 ^ 52 ≤ r ∨ gridExponent q = -1074 := by
  rcases (le_gridExponent q).lt_or_eq with hlt | heq
  · -- the grid is that of the leading digit, and a power of two below the number is on it
    left
    have hlog : gridExponent q + 52 = Int.log 2 q := by
      unfold gridExponent at *
      omega
    have hge := pow_le_snapped (k := gridExponent q + 52) (by omega)
      (hlog ▸ Int.zpow_log_le_self (by norm_num : 1 < 2) hq)
    rw [h, zpow_add₀ (by norm_num : (2 : ℚ) ≠ 0), mul_comm] at hge
    exact_mod_cast le_of_mul_le_mul_right hge (two_zpow_pos _)
  · exact Or.inr heq.symm

end Multiple

/-! ## With a sign -/

/-- The number that a result is rounded to. -/
def rounded (q : ℚ) : ℚ := if q < 0 then -snapped (-q) else snapped q

@[simp] theorem rounded_zero : rounded 0 = 0 := by simp [rounded]

theorem rounded_of_nonneg {q : ℚ} (h : 0 ≤ q) : rounded q = snapped q := if_neg h.not_gt

theorem rounded_neg (q : ℚ) : rounded (-q) = -rounded q := by
  rcases lt_trichotomy q 0 with hneg | rfl | hpos
  · rw [rounded, rounded, if_pos hneg, if_neg (by linarith), neg_neg]
  · simp
  · rw [rounded, rounded, if_neg hpos.not_gt, if_pos (by linarith), neg_neg]

theorem rounded_nonneg {q : ℚ} (h : 0 ≤ q) : 0 ≤ rounded q := by
  rw [rounded_of_nonneg h]
  exact snapped_nonneg h

/-- Rounding keeps the order. -/
theorem rounded_mono {a b : ℚ} (h : a ≤ b) : rounded a ≤ rounded b := by
  rcases lt_or_ge a 0 with ha | ha
  · rcases lt_or_ge b 0 with hb | hb
    · rw [rounded, rounded, if_pos ha, if_pos hb, neg_le_neg_iff]
      exact snapped_mono (by linarith) (by linarith)
    · -- zero lies between them
      have hneg := rounded_nonneg (q := -a) (by linarith)
      rw [rounded_neg] at hneg
      linarith [rounded_nonneg hb]
  · rw [rounded_of_nonneg ha, rounded_of_nonneg (ha.trans h)]
    exact snapped_mono ha h

/-- A number with at most 53 binary digits, none of them below `2 ^ -1074`. -/
def OnGrid (q : ℚ) : Prop := ∃ m e : ℤ, |m| < 2 ^ 53 ∧ -1074 ≤ e ∧ q = m * 2 ^ e

theorem OnGrid.neg {q : ℚ} (h : OnGrid q) : OnGrid (-q) := by
  obtain ⟨m, e, hm, he, rfl⟩ := h
  exact ⟨-m, e, by rwa [abs_neg], he, by push_cast; ring⟩

/-- A number that is on a grid is on its own, which may be finer, and stays as it is. -/
theorem snapped_eq_self {q : ℚ} (hq : 0 ≤ q) (h : OnGrid q) : snapped q = q := by
  obtain ⟨m, e, hm, he, rfl⟩ := h
  rcases hq.lt_or_eq with hpos | hzero
  · -- with 53 digits above `e` the grid of the number is not coarser
    have hgrid : gridExponent (m * 2 ^ e) ≤ e := by
      have hlt : (m : ℚ) * 2 ^ e < 2 ^ (e + 53) := by
        have hm' : (m : ℚ) < 2 ^ 53 := by exact_mod_cast (abs_lt.1 hm).2
        rw [zpow_add₀ (by norm_num : (2 : ℚ) ≠ 0), mul_comm]
        exact mul_lt_mul_of_pos_left (by exact_mod_cast hm') (two_zpow_pos _)
      have := (Int.lt_zpow_iff_log_lt (by norm_num : 1 < 2) hpos).1 hlt
      exact max_le (by omega) he
    have hwhole : (m : ℚ) * 2 ^ e / 2 ^ gridExponent (m * 2 ^ e) =
        ((m * 2 ^ (e - gridExponent (m * 2 ^ e)).toNat : ℤ) : ℚ) := by
      rw [mul_div_assoc, pow_div_pow_eq_intCast hgrid, Int.cast_mul]
    rw [snapped, hwhole, nearest_intCast, ← hwhole]
    exact div_mul_cancel₀ _ (zpow_ne_zero _ (by norm_num))
  · rw [← hzero, snapped_zero]

/-- A number on its own grid stays as it is. -/
theorem rounded_eq_self {q : ℚ} (h : OnGrid q) : rounded q = q := by
  rcases lt_or_ge q 0 with hneg | hpos
  · rw [rounded, if_pos hneg, snapped_eq_self (by linarith) h.neg, neg_neg]
  · rw [rounded_of_nonneg hpos, snapped_eq_self hpos h]

end SpeechTranscript.Double
