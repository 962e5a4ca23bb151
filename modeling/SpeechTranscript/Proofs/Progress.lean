import SpeechTranscript.Progress
import SpeechTranscript.Proofs.Confidence
import SpeechTranscript.Proofs.Decimal.Rounding
import SpeechTranscript.Proofs.Double.Large

/-!
# Progress as numbers

A progress made from a ratio is rounded four times: when the share is taken times 100, when that is
taken times 100 once more to count hundredths, when the hundredths are made whole and when they are
divided again. None of these steps changes the order of two numbers, so more of the whole is never
less progress, and the ends of the unit interval become 0 and 100.

* `proper_ofRatio`: every ratio makes a progress from 0 to 100, also one that is no number.
* `ofRatio_div_le`: a larger part of the same whole is not less progress.
-/

namespace SpeechTranscript.Progress

open Double

instance : LE Progress := ⟨fun p q => p.percent ≤ q.percent⟩

/-- A progress as checked construction lets it through. -/
def Proper (p : Progress) : Prop := 0 ≤ p.percent ∧ p.percent ≤ 100

instance (p : Progress) : Decidable p.Proper := inferInstanceAs (Decidable (_ ∧ _))

theorem isFinite_hundred : (100 : Float).isFinite = true := by decide +kernel

theorem value_hundred : value 100 = 100 := by
  have h : Decimal.Exact.ofFloat 100 = .finite false (25 * 2 ^ 48) (-46) := by decide +kernel
  rw [(value_eq_of_exact h).2]
  norm_num

section Proper

variable {p q r : Progress}

theorem Proper.isFinite (h : p.Proper) : p.percent.isFinite = true :=
  isFinite_of_le_of_le Duration.isFinite_zero isFinite_hundred h.1 h.2

theorem Proper.le_iff (hp : p.Proper) (hq : q.Proper) : p ≤ q ↔ value p.percent ≤ value q.percent :=
  Double.le_iff hp.isFinite hq.isFinite

/-- The order of proper progress is transitive. -/
theorem le_trans (hp : p.Proper) (hq : q.Proper) (hr : r.Proper) (h : p ≤ q) (h' : q ≤ r) :
    p ≤ r := by
  rw [hp.le_iff hq] at h
  rw [hq.le_iff hr] at h'
  rw [hp.le_iff hr]
  exact h.trans h'

end Proper

/-! ## Shares of the whole -/

/-- A ratio cut to the unit interval; what is no number counts as zero. -/
def share (ratio : Float) : Float := if 1 < ratio then 1 else if 0 ≤ ratio then ratio else 0

theorem ofRatio_eq (ratio : Float) : ofRatio ratio = ⟨hundredths (share ratio * 100)⟩ := rfl

/-- A number of the unit interval. -/
structure Share (x : Float) : Prop where
  finite : x.isFinite = true
  nonneg : 0 ≤ value x
  le_one : value x ≤ 1

section Share

variable {x y : Float}

/-- Whatever a ratio is, its share is a number of the unit interval. -/
theorem share_share (ratio : Float) : Share (share ratio) := by
  unfold share
  split
  · -- above one, which may be infinity
    exact ⟨Confidence.isFinite_one, by rw [Confidence.value_one]; norm_num,
      Confidence.value_one.le⟩
  · rename_i hnotabove
    split
    · rename_i hnonneg
      -- between two finite doubles
      have hfinite := isFinite_of_not_lt Duration.isFinite_zero Confidence.isFinite_one hnonneg
        hnotabove
      rw [Double.lt_iff Confidence.isFinite_one hfinite, Confidence.value_one] at hnotabove
      rw [Double.le_iff Duration.isFinite_zero hfinite, Duration.value_zero] at hnonneg
      exact ⟨hfinite, hnonneg, not_lt.1 hnotabove⟩
    · -- below zero, or no number
      exact ⟨Duration.isFinite_zero, Duration.value_zero.ge,
        Duration.value_zero.le.trans zero_le_one⟩

/-- A number of the unit interval is its own share. -/
theorem Share.share_eq (h : Share x) : share x = x := by
  have hnotabove : ¬ 1 < x := by
    rw [Double.lt_iff Confidence.isFinite_one h.finite, Confidence.value_one]
    exact h.le_one.not_gt
  have hnonneg : 0 ≤ x := by
    rw [Double.le_iff Duration.isFinite_zero h.finite, Duration.value_zero]
    exact h.nonneg
  rw [share, if_neg hnotabove, if_pos hnonneg]

/-- The share that a part has in a whole. The quotient may be too large for a double if the whole is
small, and the share is everything then. -/
theorem value_share_div (hx : x.isFinite = true) (hy : y.isFinite = true) (hnonneg : 0 ≤ value x)
    (hpos : 0 < value y) : value (share (x / y)) = min 1 (rounded (value x / value y)) := by
  -- the quotient is at most one and exact up to rounding, or the share is cut to one
  rcases le_or_gt (rounded (value x / value y)) 1 with hle | hgt
  · have hrounded := rounded_nonneg (div_nonneg hnonneg hpos.le)
    obtain ⟨hfinite, hvalue⟩ := value_div hx hy hpos.ne' (by
      rw [abs_of_nonneg hrounded]
      exact hle.trans_lt (one_lt_pow₀ one_lt_two (by norm_num)))
    have hshare : Share (x / y) := ⟨hfinite, hvalue ▸ hrounded, hvalue ▸ hle⟩
    rw [hshare.share_eq, hvalue, min_eq_right hle]
  · have habove : 1 < x / y := (atLeast_div hx hy hnonneg hpos).lt Confidence.isFinite_one (by
      rwa [Confidence.value_one])
    rw [share, if_pos habove, Confidence.value_one, min_eq_left hgt.le]

end Share

/-! ## Percentages -/

/-- The percentage of a share, before it is rounded to hundredths. -/
def percentage (q : ℚ) : ℚ := rounded (q * 100)

/-- The percentage that a share becomes. -/
def percentOf (q : ℚ) : ℚ := rounded (round (percentage (percentage q)) / 100)

section PercentOf

variable {q r : ℚ}

/-- A larger share has no smaller percentage, as rounding keeps the order. -/
theorem percentage_mono (h : q ≤ r) : percentage q ≤ percentage r := rounded_mono (by linarith)

@[simp] theorem percentage_zero : percentage 0 = 0 := by simp [percentage]

/-- Small whole numbers have whole percentages, which are not rounded. -/
theorem percentage_natCast {n : ℕ} (h : n * 100 < 2 ^ 53) : percentage n = (n * 100 : ℕ) := by
  rw [percentage, ← rounded_natCast h]
  push_cast
  rfl

@[simp] theorem percentage_one : percentage 1 = 100 := by
  simpa using percentage_natCast (n := 1) (by norm_num)

@[simp] theorem percentage_hundred : percentage 100 = 10000 := by
  simpa using percentage_natCast (n := 100) (by norm_num)

/-- A larger share does not become a smaller percentage in all four roundings. -/
theorem percentOf_mono (h : q ≤ r) : percentOf q ≤ percentOf r := by
  have hwhole := Decimal.round_le_round (percentage_mono (percentage_mono h))
  refine rounded_mono (div_le_div_of_nonneg_right ?_ (by norm_num))
  exact_mod_cast hwhole

theorem percentOf_zero : percentOf 0 = 0 := by simp [percentOf]

/-- The whole becomes 100. -/
theorem percentOf_one : percentOf 1 = 100 := by
  have hround : round (10000 : ℚ) = 10000 := round_ofNat 10000
  have hhundred : rounded 100 = 100 := rounded_natCast (n := 100) (by norm_num)
  -- no step rounds: 100, 10000 hundredths, and 100 again
  rw [percentOf, percentage_one, percentage_hundred, hround]
  norm_num [hhundred]

end PercentOf

section Hundredths

variable {x : Float}

/-- Taking a number times 100 in doubles gives its percentage. It is too small to overflow. -/
theorem value_mul_hundred (hx : x.isFinite = true) (hnonneg : 0 ≤ value x) (hle : value x ≤ 100) :
    (x * 100).isFinite = true ∧ value (x * 100) = percentage (value x) := by
  have hbound : |value x * 100| ≤ 2 ^ 100 := by
    rw [abs_of_nonneg (mul_nonneg hnonneg (by norm_num))]
    linarith
  rw [percentage]
  rw [← value_hundred] at hbound ⊢
  exact value_mul hx isFinite_hundred (abs_rounded_lt hbound)

/-- A percentage is rounded to hundredths by counting them. -/
theorem value_hundredths (hx : x.isFinite = true) (hnonneg : 0 ≤ value x) (hle : value x ≤ 100) :
    (hundredths x).isFinite = true ∧
      value (hundredths x) = rounded (round (percentage (value x)) / 100) := by
  have hscaled_nonneg := percentage_mono hnonneg
  have hscaled_le := percentage_mono hle
  rw [percentage_zero] at hscaled_nonneg
  rw [percentage_hundred] at hscaled_le
  -- the number times 100, made whole, and divided by 100
  obtain ⟨hscaled, hvalue⟩ := value_mul_hundred hx hnonneg hle
  obtain ⟨hwhole, hvalue'⟩ := Decimal.value_roundWhole hscaled (hvalue ▸ hscaled_nonneg)
    (hvalue ▸ hscaled_le.trans_lt (by norm_num))
  rw [hvalue] at hvalue'
  have hround_nonneg : 0 ≤ round (percentage (value x)) := by
    simpa using Decimal.round_le_round hscaled_nonneg
  have hround_le : round (percentage (value x)) ≤ 10000 := by
    simpa using Decimal.round_le_round hscaled_le
  have hbound : |value (Decimal.roundWhole (x * 100)) / value 100| ≤ 2 ^ 100 := by
    have hcast_nonneg : (0 : ℚ) ≤ round (percentage (value x)) := by exact_mod_cast hround_nonneg
    have hcast_le : (round (percentage (value x)) : ℚ) ≤ 10000 := by exact_mod_cast hround_le
    rw [hvalue', value_hundred, abs_of_nonneg (div_nonneg hcast_nonneg (by norm_num))]
    linarith
  have hquotient := value_div hwhole isFinite_hundred (by rw [value_hundred]; norm_num)
    (abs_rounded_lt hbound)
  rwa [hvalue', value_hundred] at hquotient

/-- The number of a percentage made from a share. -/
theorem Share.value_hundredths (h : Share x) :
    (hundredths (x * 100)).isFinite = true ∧ value (hundredths (x * 100)) = percentOf (value x) := by
  obtain ⟨hfinite, hvalue⟩ := value_mul_hundred h.finite h.nonneg (h.le_one.trans (by norm_num))
  have hnonneg := percentage_mono h.nonneg
  have hle := percentage_mono h.le_one
  rw [percentage_zero, ← hvalue] at hnonneg
  rw [percentage_one, ← hvalue] at hle
  rw [percentOf, ← hvalue]
  exact Progress.value_hundredths hfinite hnonneg hle

end Hundredths

/-! ## Progress from ratios -/

section Ratio

variable {x x' y : Float}

/-- A progress made from a ratio is finite, also if the ratio is not. -/
theorem isFinite_ofRatio (ratio : Float) : (ofRatio ratio).percent.isFinite = true := by
  rw [ofRatio_eq]
  exact (share_share ratio).value_hundredths.1

theorem value_ofRatio (ratio : Float) :
    value (ofRatio ratio).percent = percentOf (value (share ratio)) := by
  rw [ofRatio_eq]
  exact (share_share ratio).value_hundredths.2

/-- The progress of any ratio is one that checked construction lets through. -/
theorem proper_ofRatio (ratio : Float) : (ofRatio ratio).Proper := by
  have hshare := share_share ratio
  -- the ends of the unit interval go to the ends of the scale
  constructor
  · rw [Double.le_iff Duration.isFinite_zero (isFinite_ofRatio ratio), Duration.value_zero,
      value_ofRatio, ← percentOf_zero]
    exact percentOf_mono hshare.nonneg
  · rw [Double.le_iff (isFinite_ofRatio ratio) isFinite_hundred, value_hundred, value_ofRatio,
      ← percentOf_one]
    exact percentOf_mono hshare.le_one

/-- A larger part of a whole is not less progress. -/
theorem ofRatio_div_le (hx : x.isFinite = true) (hx' : x'.isFinite = true) (hy : y.isFinite = true)
    (hnonneg : 0 ≤ value x) (hpos : 0 < value y) (h : value x ≤ value x') :
    ofRatio (x / y) ≤ ofRatio (x' / y) := by
  rw [(proper_ofRatio _).le_iff (proper_ofRatio _), value_ofRatio, value_ofRatio,
    value_share_div hx hy hnonneg hpos, value_share_div hx' hy (hnonneg.trans h) hpos]
  have hquotient : rounded (value x / value y) ≤ rounded (value x' / value y) :=
    rounded_mono (div_le_div_of_nonneg_right h hpos.le)
  exact percentOf_mono (min_le_min le_rfl hquotient)

end Ratio

end SpeechTranscript.Progress
