import SpeechTranscript.Proofs.Double.Halves

/-!
# Steps of the grid

Between two neighbours on a grid there is no double. So what is below a double is at least one step
below it, and two doubles that differ do so by no less than the least of all steps. Rounding moves a
number by no more than a step of any grid that has room for it.

* `OnGrid.le_of_lt`: what is below a double is a step below it.
* `rounded_sub_pos`: doubles that differ have a difference.
* `rounded_le_add`, `sub_le_rounded`: how far rounding moves a number.
-/

namespace SpeechTranscript.Double

/-! ## Neighbours -/

section Neighbours

variable {p q : ℚ}

/-- The number of a double is on the grid. -/
theorem onGrid_value (x : Float) : OnGrid (value x) :=
  onGrid_unpackedValue (normal_unpack _)

/-- A multiple of a power of two is one of any lower power. -/
theorem exists_mul_pow_eq (n : ℤ) {e f : ℤ} (h : e ≤ f) :
    ∃ k : ℤ, (n : ℚ) * 2 ^ f = k * 2 ^ e := by
  refine ⟨n * 2 ^ (f - e).toNat, ?_⟩
  rw [Int.cast_mul, ← pow_div_pow_eq_intCast h, mul_assoc, div_mul_cancel₀ _ (two_zpow_pos e).ne']

/-- A number on the grid that is below one with all of its 53 digits is at least a step below it. -/
theorem OnGrid.le_of_lt (hq : OnGrid q) {m e : ℤ} (hm : 2 ^ 52 < m) (h : q < m * 2 ^ e) :
    q ≤ (m - 1) * 2 ^ e := by
  have hpos := two_zpow_pos e
  obtain ⟨n, f, hn, -, rfl⟩ := hq
  rcases le_or_gt e f with hle | hlt
  · -- both are multiples of the step
    obtain ⟨k, hk⟩ := exists_mul_pow_eq n hle
    rw [hk] at h ⊢
    have hstep : k < m := by exact_mod_cast lt_of_mul_lt_mul_right h hpos.le
    have hstep' : (k : ℚ) ≤ m - 1 := by exact_mod_cast Int.le_sub_one_of_lt hstep
    exact mul_le_mul_of_nonneg_right hstep' hpos.le
  · have hn' : (n : ℚ) ≤ 2 ^ 53 := by exact_mod_cast (abs_lt.1 hn).2.le
    have hm' : (2 : ℚ) ^ 52 ≤ m - 1 := by exact_mod_cast Int.le_sub_one_of_lt hm
    have hhalf : (2 : ℚ) ^ f ≤ 2 ^ (e - 1) := zpow_le_zpow_right₀ one_le_two (by omega)
    calc (n : ℚ) * 2 ^ f
        ≤ 2 ^ 53 * 2 ^ (e - 1) := mul_le_mul hn' hhalf (two_zpow_pos f).le (by positivity)
      _ = 2 ^ 52 * 2 ^ e := by rw [zpow_sub_one₀ two_ne_zero]; ring
      _ ≤ (m - 1) * 2 ^ e := mul_le_mul_of_nonneg_right hm' hpos.le

/-- Two numbers on the grid that differ do so by no less than the least step. -/
theorem OnGrid.least_le_sub (hp : OnGrid p) (hq : OnGrid q) (h : p < q) :
    2 ^ (-1074 : ℤ) ≤ q - p := by
  obtain ⟨m, e, -, he, rfl⟩ := hp
  obtain ⟨n, f, -, hf, rfl⟩ := hq
  obtain ⟨j, hj⟩ := exists_mul_pow_eq m he
  obtain ⟨k, hk⟩ := exists_mul_pow_eq n hf
  have hpos := two_zpow_pos (-1074)
  rw [hj, hk] at h ⊢
  have hstep : j < k := by exact_mod_cast lt_of_mul_lt_mul_right h hpos.le
  have hstep' : (1 : ℚ) ≤ k - j := by exact_mod_cast Int.le_sub_left_of_add_le hstep
  rw [← sub_mul]
  exact le_mul_of_one_le_left hpos.le hstep'

/-- The difference of two doubles that differ does not vanish. -/
theorem rounded_sub_pos (hp : OnGrid p) (hq : OnGrid q) (h : p < q) : 0 < rounded (q - p) := by
  have hleast : rounded (2 ^ (-1074 : ℤ)) = 2 ^ (-1074 : ℤ) :=
    rounded_eq_self ⟨1, -1074, by norm_num, le_rfl, by rw [Int.cast_one, one_mul]⟩
  calc 0 < 2 ^ (-1074 : ℤ) := two_zpow_pos _
    _ = rounded (2 ^ (-1074 : ℤ)) := hleast.symm
    _ ≤ rounded (q - p) := rounded_mono (hp.least_le_sub hq h)

end Neighbours

/-! ## How far rounding moves -/

section Moves

variable {q : ℚ} {e : ℤ}

/-- A number between two neighbours of a grid that is fine enough is rounded to no other place. -/
theorem rounded_mem_step (he : -1074 ≤ e) (hnonneg : 0 ≤ q) (h : q ≤ 2 ^ 52 * 2 ^ e) :
    ⌊q / 2 ^ e⌋ * 2 ^ e ≤ rounded q ∧ rounded q ≤ (⌊q / 2 ^ e⌋ + 1) * 2 ^ e := by
  have hpos := two_zpow_pos e
  have hlow : 0 ≤ ⌊q / 2 ^ e⌋ := Int.floor_nonneg.2 (div_nonneg hnonneg hpos.le)
  have hhigh : ⌊q / 2 ^ e⌋ ≤ 2 ^ 52 := by
    have hle : (⌊q / 2 ^ e⌋ : ℚ) ≤ 2 ^ 52 :=
      (Int.floor_le _).trans ((div_le_iff₀ hpos).2 h)
    exact_mod_cast hle
  -- both neighbours are doubles, and rounding keeps the order
  have hgrid : ∀ k : ℤ, 0 ≤ k → k < 2 ^ 53 → rounded (k * 2 ^ e) = k * 2 ^ e := fun k hk hk' =>
    rounded_eq_self ⟨k, e, by rw [abs_of_nonneg hk]; exact hk', he, rfl⟩
  constructor
  · rw [← hgrid _ hlow (by omega)]
    exact rounded_mono ((le_div_iff₀ hpos).1 (Int.floor_le _))
  · have hnext := hgrid (⌊q / 2 ^ e⌋ + 1) (by omega) (by omega)
    push_cast at hnext
    rw [← hnext]
    exact rounded_mono ((div_le_iff₀ hpos).1 (Int.lt_floor_add_one _).le)

theorem rounded_le_add (he : -1074 ≤ e) (hnonneg : 0 ≤ q) (h : q ≤ 2 ^ 52 * 2 ^ e) :
    rounded q ≤ q + 2 ^ e := by
  have hfloor := (le_div_iff₀ (two_zpow_pos e)).1 (Int.floor_le (q / 2 ^ e))
  linarith [(rounded_mem_step he hnonneg h).2]

theorem sub_le_rounded (he : -1074 ≤ e) (hnonneg : 0 ≤ q) (h : q ≤ 2 ^ 52 * 2 ^ e) :
    q - 2 ^ e ≤ rounded q := by
  have hfloor := (div_le_iff₀ (two_zpow_pos e)).1 (Int.lt_floor_add_one (q / 2 ^ e)).le
  linarith [(rounded_mem_step he hnonneg h).1]

end Moves

end SpeechTranscript.Double
