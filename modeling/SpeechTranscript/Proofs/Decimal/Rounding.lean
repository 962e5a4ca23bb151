import SpeechTranscript.Decimal.Rounding
import SpeechTranscript.Proofs.Double.Exact

/-!
# Rounding to whole numbers, as numbers

Division with halves going away from zero is, on numbers that are not negative, the rounding to the
nearest whole number with halves going up. So the nearest whole number of such a double is told by
its number alone.

* `nearestInt?_of_nonneg`: the nearest whole number.
* `value_roundWhole`: the same as a double.
-/

namespace SpeechTranscript.Decimal

open Double

/-- The nearest whole numbers are in the order of the numbers. -/
theorem round_le_round {a b : ℚ} (h : a ≤ b) : round a ≤ round b := by
  rw [round_eq, round_eq]
  exact Int.floor_le_floor (by linarith)

/-- A quotient with halves going away from zero is rounded to the nearest whole number. -/
theorem roundDiv_away_eq_round (num : ℕ) {den : ℕ} (h : 0 < den) :
    (roundDiv .away num den : ℤ) = round (num / den : ℚ) := by
  have hpos : (0 : ℚ) < den := by exact_mod_cast h
  obtain ⟨hlow, hhigh⟩ := roundDiv_bounds .away num h
  have hbelow : (roundDiv .away num den : ℚ) ≤ num / den + 1 / 2 := by
    have hhigh' : (2 : ℚ) * (den * roundDiv .away num den) ≤ 2 * num + den := by
      exact_mod_cast hhigh
    rw [← sub_le_iff_le_add, le_div_iff₀ hpos]
    linarith
  have habove : (num / den : ℚ) + 1 / 2 < roundDiv .away num den + 1 := by
    -- a rest of exactly one half is moved up
    have hstrict : 2 * num < 2 * (den * roundDiv .away num den) + den := by
      refine lt_of_le_of_ne hlow fun heq => ?_
      have whole : den * (num / den) + num % den = num := Nat.div_add_mod num den
      have hrest : num % den < den := Nat.mod_lt num h
      by_cases hhalf : 2 * (num % den) = den
      · rw [roundDiv_away_of_half hhalf, Nat.mul_add] at heq
        omega
      · have hquotient : roundDiv .away num den = num / den ∨
            roundDiv .away num den = num / den + 1 := by
          simp only [roundDiv]
          split
          · exact .inr rfl
          · exact .inl rfl
        rcases hquotient with hq | hq <;> rw [hq] at heq
        · omega
        · rw [Nat.mul_add] at heq
          omega
    have hstrict' : (2 : ℚ) * num < 2 * (den * roundDiv .away num den) + den := by
      exact_mod_cast hstrict
    rw [← lt_sub_iff_add_lt, div_lt_iff₀ hpos]
    linarith
  symm
  rw [round_eq, Int.floor_eq_iff, Int.cast_natCast]
  exact ⟨hbelow, habove⟩

/-- A dyadic number is rounded as a fraction. -/
theorem exists_roundDyadic_eq (tie : Tie) (m : ℕ) (e : ℤ) : ∃ num den : ℕ, 0 < den ∧
    roundDyadic tie m e = roundDiv tie num den ∧ (num / den : ℚ) = m * 2 ^ e := by
  refine ⟨m <<< e.toNat, 1 <<< (-e).toNat, ?_, rfl, ?_⟩
  · rw [Nat.shiftLeft_eq]
    positivity
  · rw [shiftLeft_div_shiftLeft, Nat.cast_one, div_one, zpow_neg, div_inv_eq_mul]

theorem roundDyadic_away_eq_round (m : ℕ) (e : ℤ) :
    (roundDyadic .away m e : ℤ) = round ((m : ℚ) * 2 ^ e) := by
  obtain ⟨num, den, hden, heq, hratio⟩ := exists_roundDyadic_eq .away m e
  rw [heq, roundDiv_away_eq_round num hden, hratio]

section Double

variable {x : Float}

/-- The exact form of a double whose number is not negative. Only zero can have a minus sign. -/
theorem exists_exact_of_nonneg (hx : x.isFinite = true) (hnonneg : 0 ≤ value x) :
    ∃ negative m e, Exact.ofFloat x = .finite negative m e ∧ value x = (m : ℚ) * 2 ^ e ∧
      (negative = true → m = 0) := by
  change x.toModel.unpack.isFinite = true at hx
  cases hunpack : x.toModel.unpack with
  | notANumber =>
    rw [hunpack] at hx
    contradiction
  | infinity sign =>
    rw [hunpack] at hx
    contradiction
  | zero sign =>
    refine ⟨sign == .negative, 0, 0, ?_, ?_, fun _ => rfl⟩
    · rw [Exact.ofFloat, hunpack]
    · rw [value, hunpack, Nat.cast_zero, zero_mul]
      rfl
  | finite sign m e hm =>
    cases sign with
    | positive =>
      refine ⟨false, m, e, ?_, ?_, nofun⟩
      · rw [Exact.ofFloat, hunpack]
        rfl
      · rw [value, hunpack, unpackedValue_finite]
        rfl
    | negative =>
      -- a minus sign with a mantissa makes the number negative
      have hneg := unpackedValue_pos (e := e) hm
      rw [value, hunpack, unpackedValue_negative] at hnonneg
      linarith

/-- The whole number nearest to a double that is not negative. -/
theorem nearestInt?_of_nonneg (hx : x.isFinite = true) (hnonneg : 0 ≤ value x) :
    nearestInt? x = some (round (value x)) := by
  obtain ⟨negative, m, e, hexact, hvalue, hzero⟩ := exists_exact_of_nonneg hx hnonneg
  have hround := roundDyadic_away_eq_round m e
  rw [nearestInt?, hexact]
  dsimp only
  rw [hround, hvalue]
  split
  · rename_i hnegative
    rw [hzero hnegative, Nat.cast_zero, zero_mul, round_zero, neg_zero]
  · rfl

/-- As a double, as long as that is a number of no more than 53 binary digits. -/
theorem value_roundWhole (hx : x.isFinite = true) (hnonneg : 0 ≤ value x)
    (hsmall : value x < 2 ^ 52) :
    (roundWhole x).isFinite = true ∧ value (roundWhole x) = round (value x) := by
  obtain ⟨negative, m, e, hexact, hvalue, hzero⟩ := exists_exact_of_nonneg hx hnonneg
  have hround := roundDyadic_away_eq_round m e
  rw [← hvalue] at hround
  rw [roundWhole, hexact]
  dsimp only
  -- a zero keeps its sign, any other result is positive
  rcases Nat.eq_zero_or_pos (roundDyadic .away m e) with hnone | hsome
  · obtain ⟨hfinite, hnothing⟩ := ofDyadic_zero negative
    rw [hnone] at hround ⊢
    refine ⟨hfinite, ?_⟩
    rw [hnothing, ← hround]
    cases negative <;> simp [signed, signOf]
  · have hpositive : negative = false := by
      refine Bool.eq_false_of_not_eq_true fun hnegative => ?_
      have hnothing : round (value x) = 0 := by
        rw [hvalue, hzero hnegative, Nat.cast_zero, zero_mul, round_zero]
      omega
    have hlt : roundDyadic .away m e < 2 ^ 53 := by
      have hle : round (value x) ≤ 2 ^ 52 := by
        have hmono := round_le_round hsmall.le
        rwa [show (2 : ℚ) ^ 52 = ((2 ^ 52 : ℤ) : ℚ) by norm_num, round_intCast] at hmono
      omega
    -- a whole number of 53 digits is not rounded once more
    have hself : snapped (roundDyadic .away m e * 2 ^ (0 : ℤ)) = roundDyadic .away m e := by
      rw [zpow_zero, mul_one]
      exact snapped_eq_self (Nat.cast_nonneg _) (onGrid_natCast hlt)
    have hroom : (roundDyadic .away m e : ℚ) < 2 ^ 1024 := by
      exact_mod_cast hlt.trans (Nat.pow_lt_pow_right one_lt_two (by norm_num))
    obtain ⟨hfinite, hwhole⟩ := value_ofDyadic negative hsome (hself ▸ hroom)
    refine ⟨hfinite, ?_⟩
    rw [hwhole, hself, hpositive, ← hround]
    simp [signed, signOf]

end Double

end SpeechTranscript.Decimal
