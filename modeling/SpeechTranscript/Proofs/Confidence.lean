import SpeechTranscript.Confidence
import SpeechTranscript.Proofs.Double.Products
import SpeechTranscript.Proofs.Duration

/-!
# Scores between 0 and 1

Checked construction lets through exactly the scores from 0 to 1. They are finite numbers, and so
are the weights that lengths of time give them.

* `ofValue_eq_ok_iff`: what checked construction gives.
* `proper_clamp`: cutting to the unit interval.
* `Weight.value_add`: the sum of two weights.
-/

namespace SpeechTranscript.Confidence

open Double

/-- A score as checked construction lets it through. -/
def Proper (c : Confidence) : Prop := 0 ≤ c.value ∧ c.value ≤ 1

instance (c : Confidence) : Decidable c.Proper := inferInstanceAs (Decidable (_ ∧ _))

/-- Checked construction keeps a number that is in the range and refuses any other, one that is no
number included. -/
theorem ofValue_eq_ok_iff {x : Float} {c : Confidence} :
    ofValue x = .ok c ↔ c.value = x ∧ c.Proper := by
  unfold ofValue
  split
  · rename_i h
    constructor
    · intro heq
      cases heq
      exact ⟨rfl, h⟩
    · rintro ⟨rfl, -⟩
      rfl
  · rename_i h
    constructor
    · intro heq
      cases heq
    · rintro ⟨rfl, hproper⟩
      exact absurd hproper h

/-! ## As numbers -/

/-- The number of a score. -/
def number (c : Confidence) : ℚ := Double.value c.value

theorem isFinite_one : (1 : Float).isFinite = true := by decide +kernel

theorem value_one : Double.value 1 = 1 := by
  have h : Decimal.Exact.ofFloat 1 = .finite false (2 ^ 52) (-52) := by decide +kernel
  rw [(value_eq_of_exact h).2]
  norm_num

theorem value_two : Double.value 2 = 2 := by
  have h : Decimal.Exact.ofFloat 2 = .finite false (2 ^ 52) (-51) := by decide +kernel
  rw [(value_eq_of_exact h).2]
  norm_num

/-- A number cut to the unit interval lies in it. -/
theorem proper_clamp {x : Float} (hx : x.isFinite = true) : Proper ⟨clamp x⟩ := by
  have hbelow := Double.lt_iff hx Duration.isFinite_zero
  have habove := Double.lt_iff isFinite_one hx
  unfold clamp Proper
  dsimp only
  split
  · decide +kernel
  · -- what is cut is an end of the interval; anything else is between the ends, as it is a number
    rename_i hnotbelow
    split
    · decide +kernel
    · rename_i hnotabove
      rw [hbelow] at hnotbelow
      rw [habove] at hnotabove
      exact ⟨(Double.le_iff Duration.isFinite_zero hx).2 (not_lt.1 hnotbelow),
        (Double.le_iff hx isFinite_one).2 (not_lt.1 hnotabove)⟩

section Proper

variable {c : Confidence}

theorem proper_zero : zero.Proper := by decide +kernel

theorem proper_certain : certain.Proper := by decide +kernel

/-- A proper score lies between two finite doubles, so it is finite. -/
theorem Proper.isFinite (h : c.Proper) : c.value.isFinite = true :=
  isFinite_of_le_of_le Duration.isFinite_zero isFinite_one h.1 h.2

/-- A score is a number, and so equal to itself. -/
theorem Proper.beq_self (h : c.Proper) : (c == c) = true := by
  show (c.value.toModel.unpack.compare c.value.toModel.unpack == some .eq) = true
  rw [Double.compare_eq h.isFinite h.isFinite, compare_eq_iff_eq.2 rfl]
  rfl

theorem Proper.number_nonneg (h : c.Proper) : 0 ≤ c.number := by
  have hlow := (Double.le_iff Duration.isFinite_zero h.isFinite).1 h.1
  rwa [Duration.value_zero] at hlow

theorem Proper.number_le (h : c.Proper) : c.number ≤ 1 := by
  have hhigh := (Double.le_iff h.isFinite isFinite_one).1 h.2
  rwa [value_one] at hhigh

end Proper

/-! ## Weights -/

/-- A number that is not negative and not too large to be summed. -/
structure Weight (w : Float) : Prop where
  finite : w.isFinite = true
  nonneg : 0 ≤ Double.value w
  le : Double.value w ≤ 2 ^ 20

section Weight

variable {c : Confidence} {v w : Float}

theorem Proper.weight (h : c.Proper) : Weight c.value :=
  ⟨h.isFinite, h.number_nonneg, h.number_le.trans (by norm_num)⟩

/-- A length of time is a weight. -/
theorem weight_seconds (d : Duration) : Weight d.seconds :=
  ⟨d.isFinite, d.number_nonneg, d.number_le.trans (by norm_num)⟩

/-- A weight counts as it is, or as zero. -/
theorem Weight.countedWeight (h : Weight w) : Weight (countedWeight w) := by
  unfold Confidence.countedWeight
  split
  · exact h
  · exact ⟨Duration.isFinite_zero, Duration.value_zero.ge,
      Duration.value_zero.le.trans (by norm_num)⟩

/-- Two weights are added with one rounding, far from overflow. -/
theorem Weight.value_add (hv : Weight v) (hw : Weight w) :
    (v + w).isFinite = true ∧ Double.value (v + w) = rounded (Double.value v + Double.value w) := by
  refine Double.value_add hv.finite hw.finite (abs_rounded_lt ?_)
  rw [abs_of_nonneg (add_nonneg hv.nonneg hw.nonneg)]
  calc Double.value v + Double.value w ≤ 2 ^ 20 + 2 ^ 20 := add_le_add hv.le hw.le
    _ ≤ 2 ^ 21 := by norm_num
    _ ≤ 2 ^ 100 := pow_le_pow_right₀ one_le_two (by norm_num)

end Weight

end SpeechTranscript.Confidence
