import SpeechTranscript.Proofs.Double.Grid
import SpeechTranscript.Proofs.Double.Sides
import SpeechTranscript.Proofs.Double.Truncation

/-!
# Whole parts of quotients

A quotient of a double by a whole number is rounded before its whole part is taken. What is below a
whole multiple of the divisor is a step of the grid below it, and that step is more than the
quotient can be rounded up by. So the rounding leaves the whole part as it is.

* `rounded_lt_of_lt_half`: what is nearer to the next lower double is not rounded up.
* `rounded_div_lt`: a quotient below a whole number is rounded to a number below it.
* `floor_rounded_div`: the whole part of a rounded quotient.
* `toNat_div`: the same of doubles.
-/

namespace SpeechTranscript.Double

/-- A whole number of up to 53 binary digits has all of them after a shift. -/
theorem exists_full_shift {n : ℕ} (hpos : 0 < n) (h : n ≤ 2 ^ 53) :
    ∃ j : ℕ, 2 ^ 52 < n * 2 ^ j ∧ n * 2 ^ j ≤ 2 ^ 53 := by
  have hclog : Nat.clog 2 n ≤ 53 := (Nat.clog_le_iff_le_pow one_lt_two).2 h
  -- as many places as the number lacks of 53 digits
  refine ⟨53 - Nat.clog 2 n, ?_, ?_⟩
  · rcases Nat.lt_or_ge 1 n with hmany | hone
    · have hlow := Nat.pow_pred_clog_lt_self one_lt_two hmany
      have hclog_pos := Nat.clog_pos one_lt_two hmany
      calc 2 ^ 52 = 2 ^ (Nat.clog 2 n).pred * 2 ^ (53 - Nat.clog 2 n) := by
            rw [← pow_add, Nat.pred_eq_sub_one]
            congr 1
            omega
        _ < n * 2 ^ (53 - Nat.clog 2 n) := Nat.mul_lt_mul_of_pos_right hlow (by positivity)
    · obtain rfl : n = 1 := by omega
      norm_num
  · calc n * 2 ^ (53 - Nat.clog 2 n)
        ≤ 2 ^ Nat.clog 2 n * 2 ^ (53 - Nat.clog 2 n) :=
          Nat.mul_le_mul_right _ (Nat.le_pow_clog one_lt_two n)
      _ = 2 ^ 53 := by rw [← pow_add, Nat.add_sub_cancel' hclog]

section Step

variable {p : ℚ} {m e : ℤ}

/-- The grid of a number between a double with all of its 53 digits and the next one. -/
theorem gridExponent_eq_of_between (he : -1074 ≤ e) (hm : 2 ^ 52 < m) (hm' : m ≤ 2 ^ 53)
    (hlow : (m - 1) * 2 ^ e < p) (hhigh : p < m * 2 ^ e) : gridExponent p = e := by
  have hfull : (2 : ℚ) ^ 52 ≤ m - 1 := by exact_mod_cast Int.le_sub_one_of_lt hm
  have hfull' : (m : ℚ) ≤ 2 ^ 53 := by exact_mod_cast hm'
  have hbelow : (2 : ℚ) ^ (e + 52) ≤ p := by
    rw [zpow_add₀ two_ne_zero, mul_comm]
    exact (mul_le_mul_of_nonneg_right hfull (two_zpow_pos e).le).trans hlow.le
  have habove : p < (2 : ℚ) ^ (e + 53) := by
    rw [zpow_add₀ two_ne_zero, mul_comm]
    exact hhigh.trans_le (mul_le_mul_of_nonneg_right hfull' (two_zpow_pos e).le)
  have hpos : 0 < p := (two_zpow_pos _).trans_le hbelow
  have hlog := (Int.zpow_le_iff_le_log (by norm_num : 1 < 2) hpos).1 hbelow
  have hlog' := (Int.lt_zpow_iff_log_lt (by norm_num : 1 < 2) hpos).1 habove
  unfold gridExponent
  omega

/-- What is less than half a step above a double with all of its digits is not rounded up. -/
theorem rounded_lt_of_lt_half (he : -1074 ≤ e) (hm : 2 ^ 52 < m) (hm' : m ≤ 2 ^ 53)
    (hnonneg : 0 ≤ p) (h : p < (m - 1 / 2) * 2 ^ e) : rounded p < m * 2 ^ e := by
  have hpos := two_zpow_pos e
  have hstep : ((m : ℚ) - 1) * 2 ^ e < m * 2 ^ e :=
    mul_lt_mul_of_pos_right (sub_one_lt (m : ℚ)) hpos
  refine lt_of_le_of_lt ?_ hstep
  -- below the lower double the order is enough; above it the grid is known
  rcases le_or_gt p ((m - 1) * 2 ^ e) with hle | hgt
  · have hgrid : OnGrid (((m : ℚ) - 1) * 2 ^ e) :=
      ⟨m - 1, e, by rw [abs_of_nonneg] <;> omega, he, by push_cast; rfl⟩
    rw [← rounded_eq_self hgrid]
    exact rounded_mono hle
  · have hless : p < m * 2 ^ e := h.trans (mul_lt_mul_of_pos_right (by linarith) hpos)
    have hgrid := gridExponent_eq_of_between he hm hm' hgt hless
    have hlow := (lt_div_iff₀ hpos).2 hgt
    have hhigh := (div_lt_iff₀ hpos).2 h
    have hnear : nearest (p / 2 ^ e) = m - 1 :=
      nearest_eq_of_near (by push_cast; linarith) (by push_cast; linarith)
        fun _ => ⟨by push_cast; linarith, by push_cast; linarith⟩
    rw [rounded_of_nonneg hnonneg, snapped, hgrid, hnear, Int.cast_sub, Int.cast_one]

end Step

section Quotient

variable {q : ℚ} {c k : ℕ}

/-- A whole number in steps of a grid. -/
theorem natCast_eq_shift (n j : ℕ) : (n : ℚ) = ((n * 2 ^ j : ℕ) : ℤ) * 2 ^ (-j : ℤ) := by
  rw [zpow_neg, zpow_natCast]
  push_cast
  field_simp

/-- A step at a multiple of a whole number is more than half a step at the factor, taken as many
times. -/
theorem mul_half_step_lt {i j : ℕ} (hmultiple : k * c * 2 ^ i ≤ 2 ^ 53)
    (hfactor : 2 ^ 52 < k * 2 ^ j) : (c : ℚ) * (1 / 2 * 2 ^ (-j : ℤ)) < 2 ^ (-i : ℤ) := by
  have hscaled : k * (c * 2 ^ i) < k * (2 * 2 ^ j) := by
    calc k * (c * 2 ^ i) = k * c * 2 ^ i := (mul_assoc _ _ _).symm
      _ ≤ 2 * 2 ^ 52 := hmultiple
      _ < 2 * (k * 2 ^ j) := Nat.mul_lt_mul_of_pos_left hfactor two_pos
      _ = k * (2 * 2 ^ j) := Nat.mul_left_comm _ _ _
  have hsteps : (c : ℚ) * 2 ^ i < 2 * 2 ^ j := by
    exact_mod_cast Nat.lt_of_mul_lt_mul_left hscaled
  rw [zpow_neg, zpow_neg, zpow_natCast, zpow_natCast]
  field_simp
  linarith

/-- A double below a whole multiple of a whole number, divided by it, gives a number below the
factor. -/
theorem rounded_div_lt (hq : OnGrid q) (hnonneg : 0 ≤ q) (hc : 0 < c) (hroom : k * c ≤ 2 ^ 53)
    (h : q < k * c) : rounded (q / c) < k := by
  have hc' : (0 : ℚ) < c := by exact_mod_cast hc
  have hk : 0 < k := by
    refine Nat.pos_of_ne_zero fun hzero => ?_
    rw [hzero, Nat.cast_zero, zero_mul] at h
    exact h.not_ge hnonneg
  -- both the multiple and the factor get all of their digits, each on its own grid
  obtain ⟨i, hlow, hhigh⟩ := exists_full_shift (Nat.mul_pos hk hc) hroom
  obtain ⟨j, hlow', hhigh'⟩ := exists_full_shift hk ((Nat.le_mul_of_pos_right k hc).trans hroom)
  have hbelow : q ≤ k * c - 2 ^ (-i : ℤ) := by
    have hstep := hq.le_of_lt (m := ((k * c * 2 ^ i : ℕ) : ℤ)) (e := -i) (by exact_mod_cast hlow)
      (by rw [← natCast_eq_shift]; exact_mod_cast h)
    rw [sub_mul, one_mul, ← natCast_eq_shift] at hstep
    exact_mod_cast hstep
  have hless : q / c < (((k * 2 ^ j : ℕ) : ℤ) - 1 / 2) * 2 ^ (-j : ℤ) := by
    rw [sub_mul, ← natCast_eq_shift, div_lt_iff₀ hc', sub_mul]
    linarith [mul_half_step_lt hhigh hlow']
  by_cases hj : j ≤ 1074
  · have hrounded := rounded_lt_of_lt_half (by omega) (by exact_mod_cast hlow')
      (by exact_mod_cast hhigh') (div_nonneg hnonneg hc'.le) hless
    rwa [← natCast_eq_shift] at hrounded
  · -- a shift that long would make any number too large
    have hlong : 2 ^ 54 ≤ 2 ^ j := Nat.pow_le_pow_right two_pos (by omega)
    have hle := Nat.le_mul_of_pos_left (2 ^ j) hk
    omega

/-- The whole part of a double divided by a whole number is not changed by rounding. -/
theorem floor_rounded_div (hq : OnGrid q) (hnonneg : 0 ≤ q) (hc : 0 < c) (hroom : q + c ≤ 2 ^ 53) :
    ⌊rounded (q / c)⌋₊ = ⌊q / c⌋₊ := by
  have hc' : (0 : ℚ) < c := by exact_mod_cast hc
  have hquotient : 0 ≤ q / c := div_nonneg hnonneg hc'.le
  have hlow : (⌊q / c⌋₊ : ℚ) * c ≤ q := (le_div_iff₀ hc').1 (Nat.floor_le hquotient)
  have hhigh : q < ((⌊q / c⌋₊ + 1 : ℕ) : ℚ) * c := by
    rw [← div_lt_iff₀ hc']
    push_cast
    exact Nat.lt_floor_add_one _
  -- the next multiple of the divisor is a double, which rounding cannot pass
  have hmultiple : (⌊q / c⌋₊ + 1) * c ≤ 2 ^ 53 := by
    have hle : (((⌊q / c⌋₊ + 1) * c : ℕ) : ℚ) ≤ 2 ^ 53 := by
      push_cast
      linarith
    exact_mod_cast hle
  have hfactor : ⌊q / c⌋₊ < 2 ^ 53 :=
    (Nat.lt_succ_self _).trans_le ((Nat.le_mul_of_pos_right _ hc).trans hmultiple)
  refine (Nat.floor_eq_iff (rounded_nonneg hquotient)).2 ⟨?_, ?_⟩
  · rw [← rounded_natCast hfactor]
    exact rounded_mono (Nat.floor_le hquotient)
  · exact_mod_cast rounded_div_lt hq hnonneg hc hmultiple hhigh

theorem value_ofNat_of_lt {n : ℕ} (h : n < 2 ^ 53) :
    (Float.ofNat n).isFinite = true ∧ value (Float.ofNat n) = n := by
  obtain ⟨hfinite, hvalue⟩ := value_ofNat (n := n) (h.le.trans (by norm_num))
  exact ⟨hfinite, hvalue.trans (rounded_natCast h)⟩

/-- How many times a whole number goes into a double. -/
theorem toNat_div {x : Float} (hx : x.isFinite = true) (hnonneg : 0 ≤ value x) (hc : 0 < c)
    (hroom : value x + c < 2 ^ 53) : (x / Float.ofNat c).toUInt64.toNat = ⌊value x / c⌋₊ := by
  have hc' : (1 : ℚ) ≤ c := by exact_mod_cast hc
  have hsmall : c < 2 ^ 53 := by
    have hlt : (c : ℚ) < 2 ^ 53 := by linarith
    exact_mod_cast hlt
  obtain ⟨hdivisor, hvalue⟩ := value_ofNat_of_lt hsmall
  have hquotient : 0 ≤ value x / c := div_nonneg hnonneg (Nat.cast_nonneg c)
  have hle : value x / c ≤ 2 ^ 53 := (div_le_self hnonneg hc').trans (by linarith)
  obtain ⟨hfinite, hrounded⟩ := value_div hx hdivisor (by rw [hvalue]; linarith)
    (by
      rw [hvalue]
      refine abs_rounded_lt ?_
      rw [abs_of_nonneg hquotient]
      exact hle.trans (by norm_num))
  rw [hvalue] at hrounded
  -- the quotient is far below what a whole number of 64 bits can hold
  have hwhole := abs_rounded_le 53 (by rwa [abs_of_nonneg hquotient])
  rw [abs_of_nonneg (rounded_nonneg hquotient)] at hwhole
  rw [toNat_toUInt64 hfinite (by rw [hrounded]; exact rounded_nonneg hquotient)
    (by rw [hrounded]; exact hwhole.trans_lt (by norm_num)), hrounded,
    floor_rounded_div (onGrid_value x) hnonneg hc hroom.le]

end Quotient

end SpeechTranscript.Double
