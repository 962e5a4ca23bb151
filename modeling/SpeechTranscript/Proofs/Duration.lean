import SpeechTranscript.Proofs.Double.Products
import SpeechTranscript.Time.Duration

/-!
# Durations as numbers

Every duration stands for a rational number from 0 to 86400, and durations are ordered as these
numbers are. A difference that is not negative is a duration as it is, so the only thing lost in it
is the rounding of the doubles.

* `lt_iff`, `le_iff`: the order.
* `number_earlier`, `number_later`: the earlier and the later of two positions.
* `number_sub`: the difference, rounded and at least zero.
-/

namespace SpeechTranscript.Duration

open Double

/-! ## The range -/

/-- Checked construction gives the duration of that many seconds, if there is one. -/
theorem ofSeconds_eq_ok_iff {seconds : Float} {d : Duration} :
    ofSeconds seconds = .ok d ↔ d.seconds = seconds := by
  unfold ofSeconds
  constructor
  · intro h
    split at h
    · cases h
      rfl
    · split at h <;> cases h
  · rintro rfl
    rw [dif_pos ⟨d.nonneg, d.le_longest⟩]

theorem isFinite_zero : (0 : Float).isFinite = true := by decide +kernel

theorem value_zero : value 0 = 0 := by
  have h : Decimal.Exact.ofFloat 0 = .finite false 0 0 := by decide +kernel
  rw [(value_eq_of_exact h).2]
  norm_num

theorem isFinite_longestSeconds : longestSeconds.isFinite = true := by decide +kernel

theorem value_longestSeconds : value longestSeconds = 86400 := by
  have h : Decimal.Exact.ofFloat longestSeconds = .finite false 5937362789990400 (-36) := by
    decide +kernel
  rw [(value_eq_of_exact h).2]
  norm_num

theorem isFinite_thousand : (1000 : Float).isFinite = true := by decide +kernel

/-- As many milliseconds as a second has. -/
theorem value_thousand : value 1000 = 1000 := by
  have h : Decimal.Exact.ofFloat 1000 = .finite false (1000 * 2 ^ 43) (-43) := by decide +kernel
  rw [(value_eq_of_exact h).2]
  norm_num

/-- The slack in comparisons, as a duration. -/
def slack : Duration := ⟨timeSlack, by decide +kernel, by decide +kernel⟩

/-- The number of seconds of a duration. -/
def number (d : Duration) : ℚ := value d.seconds

section Order

variable (a b : Duration)

/-- The seconds of a duration are a finite double, since they lie between two finite ones. A
comparison with one that is no number would have failed. -/
theorem isFinite : a.seconds.isFinite = true :=
  isFinite_of_le_of_le isFinite_zero isFinite_longestSeconds a.nonneg a.le_longest

theorem number_nonneg : 0 ≤ a.number := by
  have h := (Double.le_iff isFinite_zero a.isFinite).1 a.nonneg
  rwa [value_zero] at h

theorem number_le : a.number ≤ 86400 := by
  have h := (Double.le_iff a.isFinite isFinite_longestSeconds).1 a.le_longest
  rwa [value_longestSeconds] at h

/-- Durations are compared as their numbers are; all doubles at hand are finite. -/
theorem lt_iff : a < b ↔ a.number < b.number := Double.lt_iff a.isFinite b.isFinite

theorem le_iff : a ≤ b ↔ a.number ≤ b.number := Double.le_iff a.isFinite b.isFinite

protected theorem le_refl : a ≤ a := (le_iff a a).2 le_rfl

protected theorem le_of_lt {a b : Duration} (h : a < b) : a ≤ b :=
  (le_iff a b).2 ((lt_iff a b).1 h).le

protected theorem le_trans {a b c : Duration} (hab : a ≤ b) (hbc : b ≤ c) : a ≤ c :=
  (le_iff a c).2 (((le_iff a b).1 hab).trans ((le_iff b c).1 hbc))

/-- The order is total, which that of doubles is not. -/
theorem not_lt_iff : ¬ a < b ↔ b ≤ a := by rw [lt_iff, le_iff, not_lt]

/-- Equality of durations is that of their numbers. -/
theorem beq_iff : (a == b) = true ↔ a.number = b.number := by
  show (a.seconds.toModel.unpack.compare b.seconds.toModel.unpack == some .eq) = true ↔ _
  rw [Double.compare_eq a.isFinite b.isFinite, beq_iff_eq, Option.some.injEq, compare_eq_iff_eq,
    number, number]

/-- Durations differ exactly if their numbers do. The two zeros are one duration here. -/
theorem bne_iff : (a != b) = true ↔ a.number ≠ b.number := by
  rw [bne, Bool.not_eq_true', Bool.eq_false_iff, Ne, beq_iff]

/-- The durations that count as zero are those of the number zero, whatever its sign. -/
theorem isZero_iff : a.isZero = true ↔ a.number = 0 := by
  rw [← value_zero]
  exact beq_iff a zero

/-! ## Earlier and later -/

/-- The earlier of two positions has the lesser number. -/
theorem number_earlier : (earlier a b).number = min a.number b.number := by
  have horder := lt_iff b a
  unfold earlier
  split
  · rename_i h
    exact (min_eq_right (horder.1 h).le).symm
  · rename_i h
    exact (min_eq_left (not_lt.1 fun lt => h (horder.2 lt))).symm

/-- The later of two positions has the greater number. -/
theorem number_later : (later a b).number = max a.number b.number := by
  have horder := lt_iff a b
  unfold later
  split
  · rename_i h
    exact (max_eq_right (horder.1 h).le).symm
  · rename_i h
    exact (max_eq_left (not_lt.1 fun lt => h (horder.2 lt))).symm

theorem earlier_le : earlier a b ≤ a ∧ earlier a b ≤ b := by
  simp only [le_iff, number_earlier]
  exact ⟨min_le_left _ _, min_le_right _ _⟩

/-- Nothing is before the later of two positions unless it is before one of them. -/
theorem later_le_iff (c : Duration) : later a b ≤ c ↔ a ≤ c ∧ b ≤ c := by
  simp only [le_iff, number_later, max_le_iff]

theorem le_later : a ≤ later a b ∧ b ≤ later a b :=
  (later_le_iff a b _).1 (Duration.le_refl _)

/-- Only the sign of a zero can depend on which position comes first. -/
theorem earlier_beq_comm : (earlier a b == earlier b a) = true := by
  rw [beq_iff, number_earlier, number_earlier, min_comm]

theorem later_beq_comm : (later a b == later b a) = true := by
  rw [beq_iff, number_later, number_later, max_comm]

/-- Of two equal positions the first one counts as the earlier one. -/
theorem earlier_eq_left (h : a ≤ b) : earlier a b = a := if_neg ((not_lt_iff b a).2 h)

theorem later_eq_right (h : a < b) : later a b = b := if_pos h

/-- The latest of three positions, of equal ones the first, is found from either side. -/
theorem later_assoc (c : Duration) : later (later a b) c = later a (later b c) := by
  change (if (later a b) < c then c else later a b) = if a < later b c then later b c else a
  change (if (if a < b then b else a) < c then c else if a < b then b else a) =
    if a < (if b < c then c else b) then if b < c then c else b else a
  simp only [lt_iff, apply_ite number]
  -- the three comparisons decide between three positions, and the orders that contradict each other
  -- drop out
  split_ifs <;> first | rfl | (exfalso; linarith)

/-! ## Differences -/

/-- Two positions are at most a day apart, also after rounding. -/
theorem abs_rounded_sub_le : |rounded (a.number - b.number)| ≤ 86400 := by
  have hday : rounded 86400 = 86400 :=
    rounded_eq_self ⟨86400, 0, by norm_num, by norm_num, by norm_num⟩
  -- rounding keeps the order, and a day is a double
  have hlow : rounded (-86400) ≤ rounded (a.number - b.number) :=
    rounded_mono (by linarith [a.number_nonneg, b.number_le])
  have hhigh : rounded (a.number - b.number) ≤ rounded 86400 :=
    rounded_mono (by linarith [a.number_le, b.number_nonneg])
  rw [rounded_neg, hday] at hlow
  rw [hday] at hhigh
  exact abs_le.2 ⟨hlow, hhigh⟩

/-- The difference of two durations in doubles is their rounded difference. -/
theorem value_seconds_sub : (a.seconds - b.seconds).isFinite = true ∧
    value (a.seconds - b.seconds) = rounded (a.number - b.number) := by
  -- far below the greatest double, so the difference does not overflow
  refine value_sub a.isFinite b.isFinite ((abs_rounded_sub_le a b).trans_lt ?_)
  calc (86400 : ℚ) < 2 ^ 17 := by norm_num
    _ ≤ 2 ^ 1024 := pow_le_pow_right₀ (by norm_num) (by norm_num)

/-- The sum of two durations in doubles is their rounded sum; only that of durations is cut off at
24 hours. -/
theorem value_seconds_add : (a.seconds + b.seconds).isFinite = true ∧
    value (a.seconds + b.seconds) = rounded (a.number + b.number) := by
  refine value_add a.isFinite b.isFinite (abs_rounded_lt ?_)
  change |a.number + b.number| ≤ _
  rw [abs_of_nonneg (add_nonneg a.number_nonneg b.number_nonneg)]
  calc a.number + b.number ≤ 86400 + 86400 := add_le_add a.number_le b.number_le
    _ ≤ 2 ^ 100 := by norm_num

end Order

section Saturating

variable {x : Float}

/-- What is in the range is kept. -/
theorem seconds_saturating (h : 0 ≤ x) (h' : x ≤ longestSeconds) : (saturating x).seconds = x := by
  rw [saturating, dif_pos ⟨h, h'⟩]

/-- Whatever is out of the range is moved to its nearest end. -/
theorem number_saturating (hx : x.isFinite = true) :
    (saturating x).number = max 0 (min 86400 (value x)) := by
  have hlow := Double.le_iff isFinite_zero hx
  have hhigh := Double.le_iff hx isFinite_longestSeconds
  have hpast := Double.lt_iff isFinite_longestSeconds hx
  rw [value_zero] at hlow
  rw [value_longestSeconds] at hhigh hpast
  unfold saturating
  split
  · rename_i h
    rw [min_eq_right (hhigh.1 h.2), max_eq_right (hlow.1 h.1)]
    rfl
  · rename_i hout
    -- out of the range on one side or the other
    split
    · rename_i h
      rw [min_eq_left (hpast.1 h).le, max_eq_right (by norm_num)]
      exact value_longestSeconds
    · rename_i h
      have hbelow : value x ≤ 86400 := not_lt.1 fun lt => h (hpast.2 lt)
      have hneg : value x ≤ 0 := (not_le.1 fun le => hout ⟨hlow.2 le, hhigh.2 hbelow⟩).le
      rw [min_eq_right hbelow, max_eq_left hneg]
      exact value_zero

end Saturating

section Sub

variable {a b : Duration}

/-- The difference of two durations is their rounded difference, at least zero. -/
theorem number_sub : (a - b).number = max 0 (rounded (a.number - b.number)) := by
  obtain ⟨hfinite, hvalue⟩ := value_seconds_sub a b
  show (saturating (a.seconds - b.seconds)).number = _
  -- the upper end of the range is never reached
  rw [number_saturating hfinite, hvalue, min_eq_right (abs_le.1 (abs_rounded_sub_le a b)).2]

/-- The difference to an earlier position is the difference in doubles. -/
theorem seconds_sub_of_le (h : b ≤ a) : (a - b).seconds = a.seconds - b.seconds := by
  obtain ⟨hfinite, hvalue⟩ := value_seconds_sub a b
  have hnonneg : 0 ≤ rounded (a.number - b.number) :=
    rounded_nonneg (sub_nonneg.2 ((le_iff b a).1 h))
  refine seconds_saturating ?_ ?_
  · rw [Double.le_iff isFinite_zero hfinite, value_zero, hvalue]
    exact hnonneg
  · rw [Double.le_iff hfinite isFinite_longestSeconds, value_longestSeconds, hvalue]
    exact (abs_le.1 (abs_rounded_sub_le a b)).2

end Sub

end SpeechTranscript.Duration
