import SpeechTranscript.Proofs.Double.Nearest

/-!
# What rounding looks at

To round a number to a multiple of a unit, it is enough to know on which side of every half of the
unit it is. So two numbers on the same side of all multiples of a unit small enough are rounded to
the same double; one of them may be a cut form of the other that only notes whether something was
cut off.

* `SameSides.nearest_eq`, `SameSides.snapped_eq`: what is on the same sides is rounded alike.
-/

namespace SpeechTranscript.Double

section Congr

variable {a b : ℚ}

/-- A number at most half a unit away is rounded to a whole number; if it is exactly half a unit
away, the whole number must be even. -/
theorem nearest_eq_of_near {n : ℤ} (hlow : n - 1 / 2 ≤ a) (hhigh : a ≤ n + 1 / 2)
    (hodd : n % 2 = 1 → n - 1 / 2 < a ∧ a < n + 1 / 2) : nearest a = n := by
  unfold nearest
  -- below the whole number the floor is one less, and the half counts upwards
  rcases lt_or_ge a n with hbelow | habove
  · have hfloor : ⌊a⌋ = n - 1 := by
      rw [Int.floor_eq_iff]
      push_cast
      constructor <;> linarith
    have hfract : Int.fract a = a - (n - 1) := by
      rw [Int.fract, hfloor]
      push_cast
      ring
    rw [hfloor, hfract, if_neg (by linarith)]
    split_ifs with h
    · omega
    · have hhalf : ¬ n % 2 = 1 := fun hn => h (by linarith [(hodd hn).1])
      omega
  · have hfloor : ⌊a⌋ = n := by
      rw [Int.floor_eq_iff]
      constructor <;> linarith
    have hfract : Int.fract a = a - n := by rw [Int.fract, hfloor]
    rw [hfloor, hfract]
    split_ifs with h h'
    · rfl
    · linarith
    · have hhalf : ¬ n % 2 = 1 := fun hn => h (by linarith [(hodd hn).2])
      omega

/-- Two numbers are on the same side of every multiple of a unit, and on one only together. -/
def SameSides (u a b : ℚ) : Prop := ∀ n : ℤ, (n * u ≤ a ↔ n * u ≤ b) ∧ (a ≤ n * u ↔ b ≤ n * u)

theorem SameSides.lt_iff {u : ℚ} (h : SameSides u a b) (n : ℤ) : n * u < a ↔ n * u < b := by
  rw [← not_le, ← not_le, (h n).2]

theorem SameSides.lt_iff' {u : ℚ} (h : SameSides u a b) (n : ℤ) : a < n * u ↔ b < n * u := by
  rw [← not_le, ← not_le, (h n).1]

/-- Rounding to a whole number looks at the halves only. -/
theorem SameSides.nearest_eq (h : SameSides (1 / 2) a b) : nearest a = nearest b := by
  have hfloor : ⌊a⌋ = ⌊b⌋ := by
    refine eq_of_forall_le_iff fun n => ?_
    have := (h (2 * n)).1
    rw [show ((2 * n : ℤ) : ℚ) * (1 / 2) = n by push_cast; ring] at this
    rw [Int.le_floor, Int.le_floor, this]
  have hhalf := h.lt_iff' (2 * ⌊b⌋ + 1)
  have hhalf' := h.lt_iff (2 * ⌊b⌋ + 1)
  rw [show ((2 * ⌊b⌋ + 1 : ℤ) : ℚ) * (1 / 2) = ⌊b⌋ + 1 / 2 by push_cast; ring] at hhalf hhalf'
  have hlow : Int.fract a < 1 / 2 ↔ Int.fract b < 1 / 2 := by
    rw [Int.fract, Int.fract, hfloor, sub_lt_iff_lt_add', sub_lt_iff_lt_add', hhalf]
  have hhigh : 1 / 2 < Int.fract a ↔ 1 / 2 < Int.fract b := by
    rw [Int.fract, Int.fract, hfloor, lt_sub_iff_add_lt', lt_sub_iff_add_lt', hhalf']
  unfold nearest
  simp only [hfloor, hlow, hhigh]

theorem SameSides.refl (u a : ℚ) : SameSides u a a := fun _ => ⟨Iff.rfl, Iff.rfl⟩

/-- Numbers strictly between the same neighbouring whole numbers. -/
theorem SameSides.of_between {n : ℤ} (ha : n < a ∧ a < n + 1) (hb : n < b ∧ b < n + 1) :
    SameSides 1 a b := by
  -- no whole number is between the two ends
  have hbelow : ∀ {q : ℚ}, n < q ∧ q < n + 1 → ∀ k : ℤ, (k : ℚ) ≤ q ↔ k ≤ n := by
    intro q hq k
    constructor
    · intro h
      have : (k : ℚ) < n + 1 := h.trans_lt hq.2
      exact Int.lt_add_one_iff.1 (by exact_mod_cast this)
    · intro h
      exact le_trans (by exact_mod_cast h) hq.1.le
  have habove : ∀ {q : ℚ}, n < q ∧ q < n + 1 → ∀ k : ℤ, q ≤ k ↔ n + 1 ≤ k := by
    intro q hq k
    constructor
    · intro h
      have : (n : ℚ) < k := hq.1.trans_le h
      exact_mod_cast this
    · intro h
      exact hq.2.le.trans (by exact_mod_cast h)
  intro k
  rw [mul_one, hbelow ha, hbelow hb, habove ha, habove hb]
  exact ⟨Iff.rfl, Iff.rfl⟩

/-- On the same side of the multiples of a unit is on the same side of those of a multiple of it. -/
theorem SameSides.pow {j k : ℤ} (h : SameSides (2 ^ k) a b) (hjk : k ≤ j) :
    SameSides (2 ^ j) a b := by
  intro n
  have hunit : (n : ℚ) * 2 ^ j = ((n * 2 ^ (j - k).toNat : ℤ) : ℚ) * 2 ^ k := by
    have := pow_div_pow_eq_intCast hjk
    rw [div_eq_iff (two_zpow_pos k).ne'] at this
    rw [this]
    push_cast
    ring
  rw [hunit]
  exact h _

/-- A common divisor keeps the sides. -/
theorem SameSides.div {u v : ℚ} (h : SameSides u a b) (hv : 0 < v) :
    SameSides (u / v) (a / v) (b / v) := by
  intro n
  rw [mul_div_assoc', div_le_div_iff_of_pos_right hv, div_le_div_iff_of_pos_right hv,
    div_le_div_iff_of_pos_right hv, div_le_div_iff_of_pos_right hv]
  exact h n

theorem SameSides.mul {u v : ℚ} (h : SameSides u a b) (hv : 0 < v) :
    SameSides (u * v) (a * v) (b * v) := by
  rw [← div_inv_eq_mul, ← div_inv_eq_mul, ← div_inv_eq_mul]
  exact h.div (inv_pos.2 hv)

/-- Numbers between the same powers of two. -/
theorem SameSides.log_eq {k : ℤ} (h : SameSides (2 ^ k) a b) (ha : 0 < a) (hk : k ≤ Int.log 2 a) :
    Int.log 2 a = Int.log 2 b := by
  have hb : 0 < b := by
    have := (h.lt_iff 0).1
    rw [Int.cast_zero, zero_mul] at this
    exact this ha
  -- the power at the leading bit is a multiple that both numbers reach
  have hle : Int.log 2 a ≤ Int.log 2 b := by
    have := ((h.pow hk) 1).1
    rw [Int.cast_one, one_mul] at this
    refine (Int.zpow_le_iff_le_log (by norm_num : 1 < 2) hb).1 ?_
    exact_mod_cast this.1 (by exact_mod_cast Int.zpow_log_le_self (by norm_num : 1 < 2) ha)
  -- and the next one is a multiple that neither reaches
  have hlt : Int.log 2 b < Int.log 2 a + 1 := by
    have := (h.pow (j := Int.log 2 a + 1) (by omega)).lt_iff' 1
    rw [Int.cast_one, one_mul] at this
    refine (Int.lt_zpow_iff_log_lt (by norm_num : 1 < 2) hb).1 ?_
    exact_mod_cast this.1 (by exact_mod_cast Int.lt_zpow_succ_log_self (by norm_num : 1 < 2) a)
  omega

/-- Rounding looks at the halves of its grid only. -/
theorem SameSides.snapped_eq {k : ℤ} (h : SameSides (2 ^ k) a b) (ha : 0 < a)
    (hk : k + 53 ≤ Int.log 2 a) : snapped a = snapped b := by
  have hgrid : gridExponent a = gridExponent b := by
    unfold gridExponent
    rw [h.log_eq ha (by omega)]
  have hle : k ≤ gridExponent b - 1 := by
    have := le_max_left (Int.log 2 a - 52) (-1074)
    rw [← hgrid]
    unfold gridExponent
    omega
  have hhalves := (h.pow hle).div (two_zpow_pos (gridExponent b))
  rw [zpow_sub_one₀ (by norm_num : (2 : ℚ) ≠ 0), mul_div_right_comm,
    div_self (two_zpow_pos _).ne', one_mul, inv_eq_one_div] at hhalves
  rw [snapped, snapped, hgrid, hhalves.nearest_eq]

end Congr

end SpeechTranscript.Double
