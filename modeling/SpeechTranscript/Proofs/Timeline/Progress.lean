import SpeechTranscript.Proofs.Double.Sides
import SpeechTranscript.Proofs.Progress
import SpeechTranscript.Proofs.Timeline.Order

/-!
# Progress along a timeline

A timeline that gets one more segment does not report less progress, wherever that segment is placed
and whether or not the length of the recording is known. The covered seconds are added anew for
every report, so the new one may come in the middle of the sum; but adding a length never makes a
sum smaller, and adding the same length to two sums keeps their order, both also after rounding.

A sum of lengths does not overflow, however many there are: past `2 ^ 71` a day is less than half of
what the last bit counts, and the sum stays what it is.

* `progress_proper`: all progress is from 0 to 100.
* `progress_le_place`: one more segment is not less progress.
* `pairwise_progressAlong`: progress does not go back as segments are placed one after the other.
-/

namespace SpeechTranscript.Timeline

open Double

/-! ## Sums of lengths -/

/-- Where a sum of lengths stops to grow: its last bit counts `2 ^ 19` there. -/
theorem rounded_full_add_day : rounded (2 ^ 71 + 86400) = 2 ^ 71 := by
  have hpos : (0 : ℚ) < 2 ^ 71 + 86400 := by norm_num
  have hlow : 71 ≤ Int.log 2 (2 ^ 71 + 86400 : ℚ) := by
    rw [← Int.zpow_le_iff_le_log (by norm_num) hpos]
    norm_num
  have hhigh : Int.log 2 (2 ^ 71 + 86400 : ℚ) < 72 := by
    rw [← Int.lt_zpow_iff_log_lt (by norm_num) hpos]
    norm_num
  have hgrid : gridExponent (2 ^ 71 + 86400) = 19 := by
    unfold gridExponent
    omega
  -- 86400 is less than half of a step of 2 ^ 19
  have hnear : nearest ((2 ^ 71 + 86400) / 2 ^ (19 : ℤ)) = 2 ^ 52 := by
    refine nearest_eq_of_near ?_ ?_ ?_ <;> norm_num
  rw [rounded_of_nonneg hpos.le, snapped, hgrid, hnear]
  norm_num

/-- A sum of lengths of time. -/
structure Total (x : Float) : Prop where
  finite : x.isFinite = true
  nonneg : 0 ≤ value x
  le : value x ≤ 2 ^ 71

section Total

variable {x y : Float} (d : Duration)

/-- A length added to a sum is rounded once, and the sum does not overflow. -/
theorem Total.value_add (h : Total x) : (x + d.seconds).isFinite = true ∧
    value (x + d.seconds) = rounded (value x + d.number) := by
  refine Double.value_add h.finite d.isFinite (abs_rounded_lt ?_)
  change |value x + d.number| ≤ _
  rw [abs_of_nonneg (add_nonneg h.nonneg d.number_nonneg)]
  calc value x + d.number ≤ 2 ^ 71 + 86400 := add_le_add h.le d.number_le
    _ ≤ 2 ^ 100 := by norm_num

/-- A sum with one more length is a sum of the same kind: at the bound a day is rounded away. -/
theorem Total.add (h : Total x) : Total (x + d.seconds) := by
  obtain ⟨hfinite, hvalue⟩ := h.value_add d
  refine ⟨hfinite, ?_, ?_⟩
  · rw [hvalue]
    exact rounded_nonneg (add_nonneg h.nonneg d.number_nonneg)
  · rw [hvalue, ← rounded_full_add_day]
    exact rounded_mono (add_le_add h.le d.number_le)

/-- A sum does not get smaller. -/
theorem Total.le_value_add (h : Total x) : value x ≤ value (x + d.seconds) := by
  -- a sum is a double, so rounding leaves it alone
  have hself : rounded (value x) = value x :=
    rounded_eq_self (onGrid_unpackedValue (normal_unpack _))
  calc value x = rounded (value x) := hself.symm
    _ ≤ rounded (value x + d.number) := rounded_mono (le_add_of_nonneg_right d.number_nonneg)
    _ = value (x + d.seconds) := (h.value_add d).2.symm

/-- The order of two sums is kept. -/
theorem Total.value_add_mono (hx : Total x) (hy : Total y) (h : value x ≤ value y) :
    value (x + d.seconds) ≤ value (y + d.seconds) := by
  rw [(hx.value_add d).2, (hy.value_add d).2]
  exact rounded_mono (add_le_add h le_rfl)

end Total

/-! ## The covered seconds -/

/-- A sum with the lengths of more segments. -/
def addLengths (sum : Float) (segments : List Segment) : Float :=
  segments.foldl (fun sum s => sum + s.duration.seconds) sum

section Covered

variable {x y : Float}

/-- The covered seconds start from minus zero, as sums of doubles do. -/
theorem coveredSeconds_eq (timeline : Timeline) :
    timeline.coveredSeconds = addLengths (-0.0) timeline := rfl

/-- However many lengths are added, the sum stays below the bound. -/
theorem Total.addLengths (h : Total x) (segments : List Segment) :
    Total (addLengths x segments) := by
  induction segments generalizing x with
  | nil => exact h
  | cons first rest ih => exact ih (h.add first.duration)

/-- The order of two sums is kept as the same lengths are added to both. -/
theorem Total.addLengths_mono (hx : Total x) (hy : Total y) (h : value x ≤ value y)
    (segments : List Segment) :
    value (Timeline.addLengths x segments) ≤ value (Timeline.addLengths y segments) := by
  induction segments generalizing x y with
  | nil => exact h
  | cons first rest ih =>
    exact ih (hx.add first.duration) (hy.add first.duration) (hx.value_add_mono _ hy h)

/-- One more length in the middle does not make a sum smaller. -/
theorem Total.addLengths_insert (h : Total x) (front back : List Segment) (segment : Segment) :
    value (Timeline.addLengths x (front ++ back)) ≤
      value (Timeline.addLengths x (front ++ segment :: back)) := by
  have hfront := h.addLengths front
  rw [Timeline.addLengths, Timeline.addLengths, List.foldl_append, List.foldl_append,
    List.foldl_cons]
  -- the two sums part at the new length, where one of them is not smaller, and go on alike
  exact hfront.addLengths_mono (hfront.add segment.duration) (hfront.le_value_add _) back

/-- Minus zero, with which the sum starts, is a sum of no lengths. -/
theorem total_negZero : Total (-0.0) := by
  have h : Decimal.Exact.ofFloat (-0.0) = .finite true 0 0 := by decide +kernel
  obtain ⟨hfinite, hvalue⟩ := value_eq_of_exact h
  have hzero : value (-0.0) = 0 := by
    rw [hvalue]
    norm_num
  exact ⟨hfinite, hzero.ge, hzero.le.trans (by norm_num)⟩

theorem total_coveredSeconds (timeline : Timeline) : Total timeline.coveredSeconds :=
  total_negZero.addLengths timeline

/-- A segment is put between what stands in front of its place and the rest. -/
theorem exists_place_eq (timeline : Timeline) (segment : Segment) :
    ∃ front back : Timeline, timeline = front ++ back ∧
      timeline.place segment = front ++ segment :: back := by
  have hle : partitionPoint (·.start < segment.start) timeline ≤ timeline.length :=
    partitionPoint_le_length
  have hinsert := insertIdx_length_append
    (timeline.take (partitionPoint (·.start < segment.start) timeline))
    (timeline.drop (partitionPoint (·.start < segment.start) timeline)) segment
  rw [List.take_append_drop, List.length_take_of_le hle] at hinsert
  exact ⟨_, _, (List.take_append_drop _ _).symm, hinsert⟩

/-- One more segment does not cover less, wherever it is placed. -/
theorem coveredSeconds_le_place (timeline : Timeline) (segment : Segment) :
    value timeline.coveredSeconds ≤ value (timeline.place segment).coveredSeconds := by
  obtain ⟨front, back, hparts, hplace⟩ := timeline.exists_place_eq segment
  rw [hplace, coveredSeconds_eq, coveredSeconds_eq]
  conv_lhs => rw [hparts]
  exact total_negZero.addLengths_insert front back segment

end Covered

/-! ## Estimates -/

section Estimate

/-- The percentage estimated of a number of segments. -/
def estimate (n : ℕ) : Float :=
  if 100 < Float.ofNat n * percentPerSegment then 100 else Float.ofNat n * percentPerSegment

theorem isFinite_percentPerSegment : percentPerSegment.isFinite = true := by decide +kernel

theorem value_percentPerSegment : value percentPerSegment = 10 := by
  have h : Decimal.Exact.ofFloat percentPerSegment = .finite false (5 * 2 ^ 50) (-49) := by
    decide +kernel
  rw [(value_eq_of_exact h).2]
  norm_num

/-- The percentage of a few segments is exact. -/
theorem value_mul_percentPerSegment {n : ℕ} (h : n ≤ 10) :
    (Float.ofNat n * percentPerSegment).isFinite = true ∧
      value (Float.ofNat n * percentPerSegment) = (n * 10 : ℕ) := by
  obtain ⟨hcount, hvalue⟩ := value_ofNat (n := n) (h.trans (by norm_num))
  rw [rounded_natCast (by omega)] at hvalue
  have hsmall : n * 10 < 2 ^ 53 := by omega
  have hexact : rounded (value (Float.ofNat n) * value percentPerSegment) = (n * 10 : ℕ) := by
    rw [hvalue, value_percentPerSegment, ← rounded_natCast hsmall]
    push_cast
    rfl
  have hbound : |((n * 10 : ℕ) : ℚ)| < 2 ^ 1024 := by
    rw [Nat.abs_cast]
    exact_mod_cast hsmall.trans (Nat.pow_lt_pow_right (by norm_num) (by norm_num))
  rw [← hexact] at hbound ⊢
  exact value_mul hcount isFinite_percentPerSegment hbound

/-- That of many segments may be rounded, or even be too large for a double, but not down to 100. -/
theorem lt_mul_percentPerSegment {n : ℕ} (h : 10 < n) :
    (100 : Float) < Float.ofNat n * percentPerSegment := by
  -- eleven segments are the first that are too many, and larger numbers are not rounded below
  -- eleven
  have heleven : rounded (11 : ℕ) = (11 : ℕ) := rounded_natCast (by norm_num)
  have hcount : AtLeast (Float.ofNat n) (11 : ℕ) := by
    refine (atLeast_ofNat n).mono ?_
    rw [← heleven]
    exact rounded_mono (by exact_mod_cast h)
  have hproduct := hcount.mul (Nat.cast_nonneg _) isFinite_percentPerSegment
    (by rw [value_percentPerSegment]; norm_num)
  have hscaled : rounded ((11 : ℕ) * 10) = (110 : ℕ) := by
    rw [← rounded_natCast (n := 110) (by norm_num)]
    norm_num
  rw [value_percentPerSegment, hscaled] at hproduct
  exact hproduct.lt Progress.isFinite_hundred (by rw [Progress.value_hundred]; norm_num)

/-- Ten segments and more are estimated to be everything. -/
theorem value_estimate (n : ℕ) :
    (estimate n).isFinite = true ∧ value (estimate n) = (min (n * 10) 100 : ℕ) := by
  unfold estimate
  rcases Nat.lt_or_ge 10 n with hmany | hfew
  · rw [if_pos (lt_mul_percentPerSegment hmany), Progress.value_hundred, min_eq_right (by omega)]
    exact ⟨Progress.isFinite_hundred, by norm_num⟩
  · obtain ⟨hfinite, hvalue⟩ := value_mul_percentPerSegment hfew
    have hnotabove : ¬ (100 : Float) < Float.ofNat n * percentPerSegment := by
      rw [Double.lt_iff Progress.isFinite_hundred hfinite, Progress.value_hundred, hvalue, not_lt]
      exact_mod_cast (by omega : n * 10 ≤ 100)
    rw [if_neg hnotabove, min_eq_left (by omega)]
    exact ⟨hfinite, hvalue⟩

end Estimate

/-! ## Progress -/

section Progress

variable {timeline : Timeline} {recording : Option Duration}

/-- With a recording of some length the progress is the share that is covered of it. -/
theorem progress_of_some {total : Duration} (h : recording.filter (!·.isZero) = some total) :
    timeline.progress recording = .ofRatio (timeline.coveredSeconds / total.seconds) := by
  rw [progress, h]

/-- Without one, or with one of no length, it is estimated from the number of segments. -/
theorem progress_of_none (h : recording.filter (!·.isZero) = none) :
    timeline.progress recording = .ofRatio (estimate timeline.length / 100) := by
  rw [progress, h]
  rfl

variable (timeline recording)

/-- All progress is from 0 to 100. -/
theorem proper_progress : (timeline.progress recording).Proper := by
  unfold progress
  split <;> exact Progress.proper_ofRatio _

/-- One more segment is not less progress. -/
theorem progress_le_place (segment : Segment) :
    timeline.progress recording ≤ (timeline.place segment).progress recording := by
  cases htotal : recording.filter (!·.isZero) with
  | some total =>
    have hcovered := total_coveredSeconds timeline
    -- the length of the recording is not zero, so it can be divided by
    have hlong : total.number ≠ 0 := by
      have hnonzero := (Option.filter_eq_some_iff.1 htotal).2
      rwa [Bool.not_eq_true', ← Bool.not_eq_true, Duration.isZero_iff] at hnonzero
    have hpos : 0 < total.number := lt_of_le_of_ne total.number_nonneg hlong.symm
    rw [progress_of_some htotal, progress_of_some htotal]
    exact Progress.ofRatio_div_le hcovered.finite (total_coveredSeconds _).finite total.isFinite
      hcovered.nonneg hpos (coveredSeconds_le_place _ _)
  | none =>
    obtain ⟨hfinite, hvalue⟩ := value_estimate timeline.length
    -- without a length the estimates for n and for n + 1 segments
    obtain ⟨hfinite', hvalue'⟩ := value_estimate (timeline.length + 1)
    rw [progress_of_none htotal, progress_of_none htotal, length_place]
    refine Progress.ofRatio_div_le hfinite hfinite' Progress.isFinite_hundred ?_ ?_ ?_
    · rw [hvalue]
      exact Nat.cast_nonneg _
    · rw [Progress.value_hundred]
      norm_num
    · rw [hvalue, hvalue']
      exact_mod_cast (by omega : min (timeline.length * 10) 100 ≤
        min ((timeline.length + 1) * 10) 100)

end Progress

/-! ## One segment after the other -/

/-- The timeline with segments placed one after the other. -/
def placed (timeline : Timeline) (segments : List Segment) : Timeline := segments.foldl place timeline

/-- The progress after each of the segments placed. -/
def progressAlong (recording : Option Duration) (timeline : Timeline) : List Segment → List Progress
  | [] => []
  | segment :: rest =>
    (timeline.place segment).progress recording ::
      progressAlong recording (timeline.place segment) rest

section Along

variable (recording : Option Duration) (timeline : Timeline) (segments : List Segment)

/-- Placing segments one after the other loses none and adds no other. -/
theorem placed_perm : (timeline.placed segments).Perm (segments ++ timeline) := by
  induction segments generalizing timeline with
  | nil => exact .refl _
  | cons segment rest ih =>
    exact (ih _).trans ((place_perm.append_left rest).trans List.perm_middle)

@[simp] theorem length_progressAlong :
    (progressAlong recording timeline segments).length = segments.length := by
  induction segments generalizing timeline with
  | nil => rfl
  | cons segment rest ih => rw [progressAlong, List.length_cons, ih, List.length_cons]

/-- All progress along the way is from 0 to 100. -/
theorem proper_of_mem_progressAlong {progress : Progress}
    (h : progress ∈ progressAlong recording timeline segments) : progress.Proper := by
  induction segments generalizing timeline with
  | nil => contradiction
  | cons segment rest ih =>
    rcases List.mem_cons.1 h with rfl | hrest
    · exact proper_progress _ _
    · exact ih _ hrest

/-- No progress along the way is less than that at the start. -/
theorem progress_le_of_mem_progressAlong {progress : Progress}
    (h : progress ∈ progressAlong recording timeline segments) :
    timeline.progress recording ≤ progress := by
  have hproper := proper_of_mem_progressAlong recording timeline segments h
  induction segments generalizing timeline with
  | nil => contradiction
  | cons segment rest ih =>
    have hplace := progress_le_place timeline recording segment
    rcases List.mem_cons.1 h with rfl | hrest
    · exact hplace
    · exact Progress.le_trans (proper_progress _ _) (proper_progress _ _) hproper hplace
        (ih _ hrest)

/-- Progress does not go back. -/
theorem pairwise_progressAlong : (progressAlong recording timeline segments).Pairwise (· ≤ ·) := by
  induction segments generalizing timeline with
  | nil => exact .nil
  | cons segment rest ih =>
    exact .cons (fun _ hlater => progress_le_of_mem_progressAlong _ _ _ hlater) (ih _)

end Along

end SpeechTranscript.Timeline
