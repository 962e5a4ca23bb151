import SpeechTranscript.Proofs.Confidence
import SpeechTranscript.Proofs.Double.Halves
import SpeechTranscript.Proofs.Text
import SpeechTranscript.Proofs.Timeline.Groups
import SpeechTranscript.Proofs.Timeline.Progress

/-!
# Reliable segments

A segment is reliable if there is text in it and its confidence is one half or more. Segments made
of reliable ones are reliable, and so is a timeline of them: a segment with text is long enough for
its length to be halved exactly, so a mean weighted by such lengths is not rounded below one half.

* `Confidence.isReliable_weighted`: the weighted mean of two scores.
* `Segment.isReliable_mergeWithin`: the segment made of two.
* `Reliable.isReliable_confidence`: the score over a whole timeline.
-/

namespace SpeechTranscript

open Double

/-! ## Scores -/

namespace Confidence

section Reliable

variable {a b c : Confidence} {v w x : Float}

theorem isFinite_reliableThreshold : reliableThreshold.isFinite = true := by decide +kernel

theorem value_reliableThreshold : Double.value reliableThreshold = 1 / 2 := by
  have h : Decimal.Exact.ofFloat reliableThreshold = .finite false (2 ^ 52) (-53) := by
    decide +kernel
  rw [(value_eq_of_exact h).2]
  norm_num

/-- A score is reliable if it is at least one half, which allows for infinity before it is cut. -/
theorem isReliable_iff : c.isReliable = true ↔ AtLeast c.value (1 / 2) := by
  rw [isReliable, decide_eq_true_iff, ← value_reliableThreshold]
  exact ⟨atLeast_of_le isFinite_reliableThreshold,
    fun h => h.le isFinite_reliableThreshold le_rfl⟩

/-- Cutting a number to the unit interval takes nothing from a half. -/
theorem isReliable_clamp (h : AtLeast x (1 / 2)) :
    (⟨clamp x⟩ : Confidence).Proper ∧ (⟨clamp x⟩ : Confidence).isReliable = true := by
  have hzero : Double.value 0 ≤ 1 / 2 := by
    rw [Duration.value_zero]
    norm_num
  -- a half is not cut off below, and above it may be cut to one, which is reliable
  have hnonneg : 0 ≤ x := h.le Duration.isFinite_zero hzero
  rw [clamp, if_neg (h.not_lt Duration.isFinite_zero hzero)]
  split
  · decide +kernel
  · rename_i hnotabove
    have hfinite := isFinite_of_not_lt Duration.isFinite_zero isFinite_one hnonneg hnotabove
    have hle : x ≤ 1 := (Double.le_iff hfinite isFinite_one).2
      (not_lt.1 fun hlt => hnotabove ((Double.lt_iff isFinite_one hfinite).2 hlt))
    exact ⟨⟨hnonneg, hle⟩, isReliable_iff.2 h⟩

/-- A weight that is not too small to be halved. -/
structure Ample (w : Float) : Prop extends Weight w where
  low : 2 ^ (-1021 : ℤ) ≤ Double.value w

theorem Ample.pos (h : Ample w) : 0 < Double.value w := (two_zpow_pos _).trans_le h.low

theorem Ample.countedWeight_eq (h : Ample w) : countedWeight w = w := by
  have hpos : 0 < w := by
    rw [Double.lt_iff Duration.isFinite_zero h.finite, Duration.value_zero]
    exact h.pos
  rw [countedWeight, if_pos hpos]

/-- A mean of reliable scores is reliable. -/
theorem isReliable_weighted (ha : a.isReliable = true) (hb : b.isReliable = true) (hv : Ample v)
    (hw : Ample w) : (a.weighted v b w).isReliable = true := by
  obtain ⟨hfinite, htotal⟩ := hv.toWeight.value_add hw.toWeight
  have hlow : 2 ^ (-1021 : ℤ) ≤ Double.value v + Double.value w :=
    hv.low.trans (le_add_of_nonneg_right hw.nonneg)
  have hpos : 0 < Double.value (v + w) := by
    calc 0 < Double.value v := hv.pos
      _ = rounded (Double.value v) := (rounded_value v).symm
      _ ≤ rounded (Double.value v + Double.value w) :=
          rounded_mono (le_add_of_nonneg_right hw.nonneg)
      _ = Double.value (v + w) := htotal.symm
  have hsome : 0 < v + w := by
    rw [Double.lt_iff Duration.isFinite_zero hfinite, Duration.value_zero]
    exact hpos
  -- what each score adds is at least half of its weight
  have hav := (isReliable_iff.1 ha).half_mul hv.finite hv.low
  have hbw := (isReliable_iff.1 hb).half_mul hw.finite hw.low
  have hsum := hav.half_add hbw hv.nonneg hw.nonneg hlow htotal
  -- both weights count, so nothing is replaced
  have hmean : a.weighted v b w = ⟨clamp ((a.value * v + b.value * w) / (v + w))⟩ := by
    rw [weighted, hv.countedWeight_eq, hw.countedWeight_eq]
    exact if_pos hsome
  rw [hmean]
  exact (isReliable_clamp (hsum.half_div hfinite hpos)).2

end Reliable

end Confidence

/-! ## Segments -/

namespace Segment

section Reliable

variable {s a b merged : Segment} {gap : Float}

theorem isReliable_iff :
    s.isReliable = true ↔ s.confidence.isReliable = true ∧ s.isEmpty = false := by
  rw [isReliable, Bool.and_eq_true, Bool.not_eq_true']

/-- A segment with text does not last much less than a tenth of a second. -/
theorem number_duration_of_spoken (h : s.isEmpty = false) : 1 / 32 ≤ s.duration.number := by
  have hslack : Decimal.Exact.ofFloat timeSlack = .finite false 4835703278458517 (-82) := by
    decide +kernel
  have hspeech : Decimal.Exact.ofFloat shortestSpeech = .finite false 7205759403792794 (-56) := by
    decide +kernel
  obtain ⟨hfinite, hvalue⟩ := value_eq_of_exact hslack
  obtain ⟨hfinite', hvalue'⟩ := value_eq_of_exact hspeech
  have hnonneg : 0 ≤ Double.value timeSlack := by
    rw [hvalue]
    norm_num
  have hsmall : Double.value timeSlack ≤ 1 / 32 := by
    rw [hvalue]
    norm_num
  have hweight : Confidence.Weight timeSlack := ⟨hfinite, hnonneg, hsmall.trans (by norm_num)⟩
  obtain ⟨hsum, hrounded⟩ := (Confidence.weight_seconds s.duration).value_add hweight
  have hlong := (Double.le_iff hfinite' hsum).1 (long_enough_of_spoken h)
  -- checked construction asks for a tenth of a second with the slack added, in doubles
  by_contra hshort
  -- a length that is shorter stays below a sixteenth with the slack
  have hsixteenth : rounded (1 / 16) = 1 / 16 :=
    rounded_eq_self ⟨1, -4, by norm_num, by norm_num, by norm_num⟩
  have hbelow : s.duration.number + Double.value timeSlack ≤ 1 / 16 := by linarith
  have hle := (rounded_mono hbelow).trans hsixteenth.le
  have habove : (1 : ℚ) / 16 < Double.value shortestSpeech := by
    rw [hvalue']
    norm_num
  exact absurd ((hlong.trans_eq hrounded).trans hle) (not_le.2 habove)

/-- A segment with text is long enough to weigh by. -/
theorem ample_duration_of_spoken (h : s.isEmpty = false) :
    Confidence.Ample s.duration.seconds where
  toWeight := Confidence.weight_seconds _
  low := by
    have hlow : (2 : ℚ) ^ (-1021 : ℤ) ≤ 2 ^ (-5 : ℤ) :=
      zpow_le_zpow_right₀ one_le_two (by norm_num)
    exact (hlow.trans (by norm_num)).trans (number_duration_of_spoken h)

/-- A segment made of two reliable ones is reliable. -/
theorem isReliable_mergeWithin (h : a.mergeWithin b gap = .ok merged) (ha : a.isReliable = true)
    (hb : b.isReliable = true) : merged.isReliable = true := by
  obtain ⟨hascore, haspoken⟩ := isReliable_iff.1 ha
  obtain ⟨hbscore, hbspoken⟩ := isReliable_iff.1 hb
  refine isReliable_iff.2 ⟨?_, ?_⟩
  · rw [confidence_of_mergeWithin h]
    exact Confidence.isReliable_weighted hascore hbscore (ample_duration_of_spoken haspoken)
      (ample_duration_of_spoken hbspoken)
  · -- there is text in it, since there was in both
    rw [isEmpty_mergeWithin h, haspoken, hbspoken]
    rfl

end Reliable

end Segment

/-! ## Timelines -/

namespace Timeline

/-- All segments are reliable. -/
def Reliable (timeline : Timeline) : Prop := ∀ segment ∈ timeline, segment.isReliable = true

section Reliable

variable {timeline : Timeline} {x : Float}

/-- The weighted scores of some segments, and their lengths. -/
def addScores (sums : Float × Float) (segments : List Segment) : Float × Float :=
  segments.foldl (fun sums s => (sums.1 + s.confidence.value * s.duration.seconds,
    sums.2 + s.duration.seconds)) sums

/-- The scores weighted by length are not below half of the length. -/
structure Halved (sums : Float × Float) : Prop where
  total : Total sums.2
  half : AtLeast sums.1 (value sums.2 / 2)

/-- The empty sums are halved. -/
theorem halved_zero : Halved (0, 0) where
  total := ⟨Duration.isFinite_zero, Duration.value_zero.ge, by
    rw [Duration.value_zero]
    norm_num⟩
  half := by
    refine .inr ⟨Duration.isFinite_zero, ?_⟩
    rw [Duration.value_zero, zero_div]

/-- One more reliable segment keeps the sums halved. It adds its length to one of them and at least
half of it to the other. -/
theorem Halved.add {sums : Float × Float} {s : Segment} (h : Halved sums)
    (hs : s.isReliable = true) :
    Halved (sums.1 + s.confidence.value * s.duration.seconds, sums.2 + s.duration.seconds) := by
  obtain ⟨hscore, hspoken⟩ := Segment.isReliable_iff.1 hs
  have hample := Segment.ample_duration_of_spoken hspoken
  have hweighted := (Confidence.isReliable_iff.1 hscore).half_mul hample.finite hample.low
  have hlow : 2 ^ (-1021 : ℤ) ≤ value sums.2 + value s.duration.seconds :=
    hample.low.trans (le_add_of_nonneg_left h.total.nonneg)
  exact ⟨h.total.add _, h.half.half_add hweighted h.total.nonneg hample.nonneg hlow
    (h.total.value_add _).2⟩

/-- Reliable segments keep the sums halved. Induction on the segments, with the sums so far. -/
theorem Halved.addScores {sums : Float × Float} (h : Halved sums) (hreliable : timeline.Reliable) :
    Halved (addScores sums timeline) := by
  induction timeline generalizing sums with
  | nil => exact h
  | cons first rest ih =>
    obtain ⟨hfirst, hrest⟩ := List.forall_mem_cons.1 hreliable
    exact ih (h.add hfirst) hrest

theorem addScores_snd (sums : Float × Float) (segments : List Segment) :
    (addScores sums segments).2 = addLengths sums.2 segments := by
  induction segments generalizing sums with
  | nil => rfl
  | cons first rest ih => exact ih _

theorem Total.le_value_addLengths (h : Total x) (segments : List Segment) :
    value x ≤ value (Timeline.addLengths x segments) := by
  induction segments generalizing x with
  | nil => exact le_rfl
  | cons first rest ih => exact (h.le_value_add _).trans (ih (h.add _))

/-- A reliable timeline has a length. -/
theorem Reliable.addScores_pos {sums : Float × Float} (h : timeline.Reliable)
    (hsome : timeline ≠ []) (hsums : Total sums.2) :
    0 < value (Timeline.addScores sums timeline).2 := by
  obtain ⟨first, rest, rfl⟩ := List.exists_cons_of_ne_nil hsome
  have hfirst := Segment.isReliable_iff.1 (h first List.mem_cons_self)
  have hample := Segment.ample_duration_of_spoken hfirst.2
  rw [addScores_snd]
  -- the first length alone is positive, and sums do not fall
  calc 0 < value first.duration.seconds := hample.pos
    _ = rounded (value first.duration.seconds) := (rounded_value _).symm
    _ ≤ rounded (value sums.2 + first.duration.number) :=
        rounded_mono (le_add_of_nonneg_left hsums.nonneg)
    _ = value (sums.2 + first.duration.seconds) := (hsums.value_add _).2.symm
    _ ≤ value (addLengths sums.2 (first :: rest)) := (hsums.add _).le_value_addLengths rest

/-- Over some length the score is the quotient of the sums, cut to the unit interval. -/
theorem confidence_of_pos (h : 0 < (addScores (0, 0) timeline).2) :
    timeline.confidence = ((Confidence.ofValue (Confidence.clamp
      ((addScores (0, 0) timeline).1 / (addScores (0, 0) timeline).2))).toOption).getD .zero :=
  if_pos h

/-- The score over reliable segments is reliable. -/
theorem Reliable.isReliable_confidence (h : timeline.Reliable) (hsome : timeline ≠ []) :
    timeline.confidence.isReliable = true := by
  have hsums := halved_zero.addScores h
  have hpos := h.addScores_pos hsome halved_zero.total
  have hlong : 0 < (addScores (0, 0) timeline).2 := by
    rw [Double.lt_iff Duration.isFinite_zero hsums.total.finite, Duration.value_zero]
    exact hpos
  obtain ⟨hproper, hreliable⟩ :=
    Confidence.isReliable_clamp (hsums.half.half_div hsums.total.finite hpos)
  -- the quotient passes the check, so it is not replaced
  rw [confidence_of_pos hlong, Confidence.ofValue_eq_ok_iff.2 ⟨rfl, hproper⟩]
  exact hreliable

end Reliable

end Timeline

end SpeechTranscript
