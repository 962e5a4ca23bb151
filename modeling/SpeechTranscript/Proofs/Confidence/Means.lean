import SpeechTranscript.Proofs.Confidence
import SpeechTranscript.Proofs.Double.Special
import SpeechTranscript.Refusal

/-!
# Means under any weights

The plain mean of two scores is a score. A weighted mean is one exactly if the weighted scores add
up to a finite number. They do if the weights do, because no weighted score is above its weight. If
they do not, then the weights add up to the infinity, and what is left is the infinity divided by
itself: no number, which cutting to the unit interval leaves as it is.

* `proper_weighted_iff`: when a weighted mean is a score.
* `forall_proper_weighted_iff`: the weights that are safe for all scores.
* `Possible.proper_weighted_iff`: weighted means of what may be no number.
* `Origin.proper_iff_bounded`: every result that can be come by, followed through its means.
* `accepted_again_iff`: which results checked construction would let through again.
-/

namespace SpeechTranscript.Confidence

open Double

section Weighted

variable {a b c : Confidence} {v w x y : Float}

/-! ## Cutting to the unit interval -/

/-- What is no number is not cut. -/
theorem isNaN_clamp (h : x.isNaN = true) : (clamp x).isNaN = true := by
  rw [clamp, if_neg (not_lt_of_isNaN h _).1, if_neg (not_lt_of_isNaN h _).2]
  exact h

theorem Proper.not_isNaN (h : c.Proper) : c.value.isNaN = false :=
  not_isNaN_of_isFinite h.isFinite

/-- Everything else becomes a score. -/
theorem proper_clamp_iff : Proper ⟨clamp x⟩ ↔ x.isNaN = false := by
  constructor
  · intro h
    cases hx : x.isNaN with
    | false => rfl
    | true => exact (isNaN_clamp hx).symm.trans h.not_isNaN
  · intro hx
    -- below zero and above one it is cut to a bound, between them it stays
    by_cases hbelow : x < 0
    · rw [clamp, if_pos hbelow]
      decide +kernel
    by_cases habove : 1 < x
    · rw [clamp, if_neg hbelow, if_pos habove]
      decide +kernel
    · exact proper_clamp
        (isFinite_of_not_isNaN hx Duration.isFinite_zero isFinite_one hbelow habove)

/-! ## Weighted scores -/

/-- A weight that counts is a number, and not negative. -/
theorem atLeast_countedWeight (w : Float) : AtLeast (countedWeight w) 0 := by
  rw [← Duration.value_zero]
  unfold countedWeight
  split
  · rename_i hpos
    exact atLeast_of_le Duration.isFinite_zero (Double.le_of_lt hpos)
  · exact .inr ⟨Duration.isFinite_zero, le_rfl⟩

/-- A weighted score is not above its weight. -/
theorem Proper.mul_le (h : c.Proper) (hx : x.isFinite = true) (hnonneg : 0 ≤ Double.value x) :
    (c.value * x).isFinite = true ∧ 0 ≤ Double.value (c.value * x) ∧
      Double.value (c.value * x) ≤ Double.value x := by
  have hproduct : 0 ≤ c.number * Double.value x := mul_nonneg h.number_nonneg hnonneg
  have hle : rounded (c.number * Double.value x) ≤ Double.value x := by
    calc rounded (c.number * Double.value x)
        ≤ rounded (Double.value x) := rounded_mono (mul_le_of_le_one_left hnonneg h.number_le)
      _ = Double.value x := rounded_value x
  obtain ⟨hfinite, hvalue⟩ := value_mul h.isFinite hx (abs_rounded_lt_of_le hproduct hle)
  exact ⟨hfinite, (rounded_nonneg hproduct).trans_eq hvalue.symm, hvalue.trans_le hle⟩

/-- The weighted scores of two, added up. -/
def weightedSum (a : Confidence) (v : Float) (b : Confidence) (w : Float) : Float :=
  a.value * countedWeight v + b.value * countedWeight w

/-- If the weights that count have a finite sum, so have the weighted scores, and no larger one. -/
theorem weightedSum_le (ha : a.Proper) (hb : b.Proper)
    (htotal : (countedWeight v + countedWeight w).isFinite = true) :
    (a.weightedSum v b w).isFinite = true ∧ 0 ≤ Double.value (a.weightedSum v b w) ∧
      Double.value (a.weightedSum v b w) ≤ Double.value (countedWeight v + countedWeight w) := by
  have hv := atLeast_countedWeight v
  have hw := atLeast_countedWeight w
  obtain ⟨hvfinite, hwfinite⟩ := hv.isFinite_of_add hw htotal
  unfold weightedSum
  generalize countedWeight v = x at *
  generalize countedWeight w = y at *
  have hx := hv.le_value hvfinite
  have hy := hw.le_value hwfinite
  obtain ⟨hfinite, hnonneg, hle⟩ := ha.mul_le hvfinite hx
  obtain ⟨hfinite', hnonneg', hle'⟩ := hb.mul_le hwfinite hy
  have hscores : 0 ≤ Double.value (a.value * x) + Double.value (b.value * y) :=
    add_nonneg hnonneg hnonneg'
  -- both scores are at most one, and rounding keeps the order
  have hbelow : rounded (Double.value (a.value * x) + Double.value (b.value * y)) ≤
      Double.value (x + y) := by
    calc rounded (Double.value (a.value * x) + Double.value (b.value * y))
        ≤ rounded (Double.value x + Double.value y) := rounded_mono (add_le_add hle hle')
      _ ≤ Double.value (x + y) :=
        (AtLeast.add (.inr ⟨hvfinite, le_rfl⟩) (.inr ⟨hwfinite, le_rfl⟩) hx hy).le_value htotal
  obtain ⟨hsum, hvalue⟩ :=
    Double.value_add hfinite hfinite' (abs_rounded_lt_of_le hscores hbelow)
  exact ⟨hsum, (rounded_nonneg hscores).trans_eq hvalue.symm, hvalue.trans_le hbelow⟩

/-- A certain score counts with all of its weight. -/
theorem atLeast_certain_mul (hx : AtLeast x 0) : AtLeast (certain.value * x) 0 ∧
    ((certain.value * x).isFinite = true →
      x.isFinite = true ∧ Double.value (certain.value * x) = Double.value x) := by
  rcases hx with hinfinite | ⟨hfinite, hnonneg⟩
  · have hproduct : (certain.value * x).toModel.unpack = .infinity .positive := by
      show (Float.Model.pack (.mul .binary64 certain.value.toModel.unpack
        x.toModel.unpack)).unpack = _
      rw [hinfinite]
      exact unpack_pack (u := .infinity .positive) trivial
    refine ⟨.inl hproduct, fun h => ?_⟩
    change (certain.value * x).toModel.unpack.isFinite = true at h
    rw [hproduct] at h
    contradiction
  · -- one times a double is that double, with nothing rounded
    have hself : rounded (Double.value certain.value * Double.value x) = Double.value x := by
      rw [show Double.value certain.value = 1 from value_one, one_mul, rounded_value]
    obtain ⟨hproduct, hvalue⟩ := value_mul proper_certain.isFinite hfinite <| by
      rw [hself]
      exact abs_value_lt x
    rw [hself] at hvalue
    exact ⟨.inr ⟨hproduct, hvalue ▸ hnonneg⟩, fun _ => ⟨hfinite, hvalue⟩⟩

/-- The weighted sum of two certain scores is finite only if the sum of the weights is. -/
theorem isFinite_of_weightedSum_certain (h : (certain.weightedSum v certain w).isFinite = true) :
    (countedWeight v + countedWeight w).isFinite = true := by
  have hv := atLeast_countedWeight v
  have hw := atLeast_countedWeight w
  unfold weightedSum at h
  generalize countedWeight v = x at *
  generalize countedWeight w = y at *
  obtain ⟨hnonneg, hfinite⟩ := atLeast_certain_mul hv
  obtain ⟨hnonneg', hfinite'⟩ := atLeast_certain_mul hw
  obtain ⟨hproduct, hproduct'⟩ := hnonneg.isFinite_of_add hnonneg' h
  obtain ⟨hx, hvalue⟩ := hfinite hproduct
  obtain ⟨hy, hvalue'⟩ := hfinite' hproduct'
  have hle := hv.le_value hx
  have hle' := hw.le_value hy
  have hsum : rounded (Double.value x + Double.value y) ≤
      Double.value (certain.value * x + certain.value * y) :=
    (AtLeast.add (.inr ⟨hproduct, hvalue.ge⟩) (.inr ⟨hproduct', hvalue'.ge⟩) hle hle').le_value h
  exact (Double.value_add hx hy (abs_rounded_lt_of_le (add_nonneg hle hle') hsum)).1

/-! ## Weighted means -/

/-- The number that is cut to give a weighted mean. -/
def uncutMean (a : Confidence) (v : Float) (b : Confidence) (w : Float) : Float :=
  if 0 < countedWeight v + countedWeight w then
    a.weightedSum v b w / (countedWeight v + countedWeight w)
  else (a.value + b.value) / 2

/-- A weighted mean is the uncut one, cut to the bounds of a score. -/
theorem weighted_eq (a : Confidence) (v : Float) (b : Confidence) (w : Float) :
    a.weighted v b w = ⟨clamp (a.uncutMean v b w)⟩ := by
  unfold weighted uncutMean weightedSum
  dsimp only
  split <;> rfl

/-- Two scores and half of their sum are far from being too large. -/
theorem isFinite_plainMean (ha : a.Proper) (hb : b.Proper) :
    ((a.value + b.value) / 2).isFinite = true := by
  obtain ⟨hfinite, hvalue⟩ := ha.weight.value_add hb.weight
  have hsum : |Double.value (a.value + b.value)| ≤ 2 ^ 1 := by
    rw [hvalue]
    refine abs_rounded_le 1 ?_
    rw [abs_of_nonneg (add_nonneg ha.weight.nonneg hb.weight.nonneg)]
    exact (add_le_add ha.number_le hb.number_le).trans (by norm_num)
  refine (value_div hfinite (by decide +kernel) (by rw [value_two]; norm_num)
    (abs_rounded_lt ?_)).1
  rw [value_two, abs_div, abs_two]
  exact ((div_le_self (abs_nonneg _) one_le_two).trans hsum).trans
    (pow_le_pow_right₀ one_le_two (by norm_num))

/-- The uncut mean of scores is a number exactly if the weighted scores have a finite sum. -/
theorem isNaN_uncutMean (ha : a.Proper) (hb : b.Proper) :
    (a.uncutMean v b w).isNaN = !(a.weightedSum v b w).isFinite := by
  have htotal : AtLeast (countedWeight v + countedWeight w) (rounded (0 + 0)) :=
    (atLeast_countedWeight v).add (atLeast_countedWeight w) le_rfl le_rfl
  rcases htotal with hinfinite | ⟨hfinite, -⟩
  · -- the sum of the weights is too large, so only a finite weighted sum leaves a number
    have htotal' : AtLeast (countedWeight v + countedWeight w) 1 := .inl hinfinite
    have hpos : 0 < countedWeight v + countedWeight w :=
      htotal'.lt Duration.isFinite_zero (by rw [Duration.value_zero]; exact one_pos)
    rw [uncutMean, if_pos hpos]
    exact isNaN_div_infinity hinfinite
  · -- both sums are finite, and the quotient is not above one
    obtain ⟨hsum, hnonneg, hle⟩ := weightedSum_le ha hb hfinite
    rw [hsum]
    refine not_isNaN_of_isFinite ?_
    unfold uncutMean
    split
    · rename_i hpos
      rw [Double.lt_iff Duration.isFinite_zero hfinite, Duration.value_zero] at hpos
      refine (value_div hsum hfinite hpos.ne' (abs_rounded_lt ?_)).1
      rw [abs_of_nonneg (div_nonneg hnonneg hpos.le)]
      exact ((div_le_one hpos).2 hle).trans (one_le_pow₀ one_le_two)
    · exact isFinite_plainMean ha hb

/-- A weighted mean of scores is a score exactly if the weighted scores have a finite sum. -/
theorem proper_weighted_iff (ha : a.Proper) (hb : b.Proper) :
    (a.weighted v b w).Proper ↔ (a.weightedSum v b w).isFinite = true := by
  rw [weighted_eq, proper_clamp_iff, isNaN_uncutMean ha hb, Bool.not_eq_false']

/-- The weights under which all means of scores are scores. -/
theorem forall_proper_weighted_iff : (∀ a b : Confidence, a.Proper → b.Proper →
    (a.weighted v b w).Proper) ↔ (countedWeight v + countedWeight w).isFinite = true := by
  constructor
  · intro h
    exact isFinite_of_weightedSum_certain <|
      (proper_weighted_iff proper_certain proper_certain).1 (h _ _ proper_certain proper_certain)
  · intro h a b ha hb
    exact (proper_weighted_iff ha hb).2 (weightedSum_le ha hb h).1

theorem Proper.weighted (ha : a.Proper) (hb : b.Proper) (hv : Weight v) (hw : Weight w) :
    (a.weighted v b w).Proper :=
  forall_proper_weighted_iff.2 (hv.countedWeight.value_add hw.countedWeight).1 a b ha hb

theorem Proper.mean (ha : a.Proper) (hb : b.Proper) : (a.mean b).Proper :=
  forall_proper_weighted_iff.2 (by decide +kernel) a b ha hb

/-- It does not matter which of the two scores comes first. -/
theorem weighted_comm (a b : Confidence) (v w : Float) : a.weighted v b w = b.weighted w a v := by
  unfold Confidence.weighted
  dsimp only
  rw [Double.add_comm (countedWeight w), Double.add_comm (b.value * _), Double.add_comm b.value]

/-! ### Results that are no number -/

/-- What a result can be: a score, or no number. -/
def Possible (c : Confidence) : Prop := c.Proper ∨ c.value.isNaN = true

instance (c : Confidence) : Decidable c.Possible := inferInstanceAs (Decidable (_ ∨ _))

/-- A weighted mean of any two results is a score or no number. -/
theorem possible_weighted (a : Confidence) (v : Float) (b : Confidence) (w : Float) :
    (a.weighted v b w).Possible := by
  rw [Possible, weighted_eq, proper_clamp_iff]
  cases h : (a.uncutMean v b w).isNaN with
  | false => exact .inl rfl
  | true => exact .inr (isNaN_clamp h)

/-- A result is equal to itself exactly if it is a score. -/
theorem Possible.beq_self_iff (h : c.Possible) : (c == c) = true ↔ c.Proper := by
  refine ⟨fun hself => h.resolve_right fun hnumber => ?_, Proper.beq_self⟩
  rw [show (c == c) = false from beq_eq_false_of_isNaN hnumber _] at hself
  contradiction

/-- What is no number stays so in every mean. -/
theorem isNaN_weighted (h : a.value.isNaN = true) (v : Float) (b : Confidence) (w : Float) :
    (a.weighted v b w).value.isNaN = true := by
  rw [weighted_eq]
  refine isNaN_clamp ?_
  unfold uncutMean weightedSum
  split
  · exact isNaN_div (isNaN_add (isNaN_mul h _) _) _
  · exact isNaN_div (isNaN_add h _) _

/-- What a weighted mean that is a score was made of is a score. -/
theorem Proper.of_weighted (ha : a.Possible) (h : (a.weighted v b w).Proper) : a.Proper := by
  refine ha.resolve_right fun hnumber => ?_
  have hmean := isNaN_weighted hnumber v b w
  rw [h.not_isNaN] at hmean
  contradiction

/-- When a weighted mean of two earlier results is a score. -/
theorem Possible.proper_weighted_iff (ha : a.Possible) (hb : b.Possible) :
    (a.weighted v b w).Proper ↔
      a.Proper ∧ b.Proper ∧ (a.weightedSum v b w).isFinite = true := by
  constructor
  · intro h
    have hfirst := Proper.of_weighted ha h
    have hsecond := Proper.of_weighted hb (weighted_comm a b v w ▸ h)
    exact ⟨hfirst, hsecond, (Confidence.proper_weighted_iff hfirst hsecond).1 h⟩
  · rintro ⟨hfirst, hsecond, hsum⟩
    exact (Confidence.proper_weighted_iff hfirst hsecond).2 hsum

/-- One score that is no number spoils a mean, and nothing else does. -/
theorem Possible.proper_mean_iff (ha : a.Possible) (hb : b.Possible) :
    (a.mean b).Proper ↔ a.Proper ∧ b.Proper := by
  constructor
  · intro h
    obtain ⟨hfirst, hsecond, -⟩ := (ha.proper_weighted_iff hb).1 h
    exact ⟨hfirst, hsecond⟩
  · rintro ⟨hfirst, hsecond⟩
    exact hfirst.mean hsecond

end Weighted

/-! ## Scores and where they come from -/

/-- The ways to come by a score: it is checked, or one of the two ends, or a mean of two others. -/
inductive Origin where
  | checked (value : Float)
  | zero
  | certain
  | mean (first second : Origin)
  | weighted (first : Origin) (weight : Float) (second : Origin) (otherWeight : Float)

namespace Origin

/-- The score that is come by so, if all checks let it through. -/
def score : Origin → Except InvalidValue Confidence
  | checked value => ofValue value
  | zero => .ok Confidence.zero
  | certain => .ok Confidence.certain
  | mean first second => do
    let a ← first.score
    let b ← second.score
    return a.mean b
  | weighted first v second w => do
    let a ← first.score
    let b ← second.score
    return a.weighted v b w

/-- In all weighted means on the way the weighted scores have a finite sum. -/
def Bounded : Origin → Prop
  | checked _ | zero | certain => True
  | mean first second => first.Bounded ∧ second.Bounded
  | weighted first v second w => first.Bounded ∧ second.Bounded ∧
    ∀ a b, first.score = .ok a → second.score = .ok b → (a.weightedSum v b w).isFinite = true

section Score

variable {origin : Origin} {c : Confidence}

/-- However it is come by, a result is a score or no number. -/
theorem possible_score (h : origin.score = .ok c) : c.Possible := by
  cases origin with
  | checked value => exact .inl (ofValue_eq_ok_iff.1 h).2
  | zero =>
    cases h
    exact .inl proper_zero
  | certain =>
    cases h
    exact .inl proper_certain
  | mean first second | weighted first v second w =>
    obtain ⟨a, -, h⟩ := bind_eq_ok_iff.1 h
    obtain ⟨b, -, h⟩ := bind_eq_ok_iff.1 h
    cases h
    exact possible_weighted a _ b _

/-- A result is a score exactly if all weighted sums on the way to it are finite. -/
theorem proper_iff_bounded (h : origin.score = .ok c) : c.Proper ↔ origin.Bounded := by
  induction origin generalizing c with
  | checked value => exact iff_of_true (ofValue_eq_ok_iff.1 h).2 trivial
  | zero =>
    cases h
    exact iff_of_true proper_zero trivial
  | certain =>
    cases h
    exact iff_of_true proper_certain trivial
  | mean first second ih ih' =>
    obtain ⟨a, hfirst, h⟩ := bind_eq_ok_iff.1 h
    obtain ⟨b, hsecond, h⟩ := bind_eq_ok_iff.1 h
    cases h
    rw [(possible_score hfirst).proper_mean_iff (possible_score hsecond), ih hfirst, ih' hsecond,
      Bounded]
  | weighted first v second w ih ih' =>
    obtain ⟨a, hfirst, h⟩ := bind_eq_ok_iff.1 h
    obtain ⟨b, hsecond, h⟩ := bind_eq_ok_iff.1 h
    cases h
    -- the two parts have no other scores than these
    have hsum : (a.weightedSum v b w).isFinite = true ↔ ∀ a' b', first.score = .ok a' →
        second.score = .ok b' → (a'.weightedSum v b' w).isFinite = true := by
      constructor
      · intro hfinite a' b' ha' hb'
        obtain rfl : a = a' := Except.ok.inj (hfirst.symm.trans ha')
        obtain rfl : b = b' := Except.ok.inj (hsecond.symm.trans hb')
        exact hfinite
      · intro hfinite
        exact hfinite a b hfirst hsecond
    rw [(possible_score hfirst).proper_weighted_iff (possible_score hsecond), ih hfirst,
      ih' hsecond, hsum, Bounded]

end Score

end Origin

/-- The mean of scores is a score. A weighted mean is one exactly if the weighted scores have a
finite sum, for which it is enough that the weights have one. So checked construction would let
through again what was come by exactly if that is so for all weighted means on the way to it. -/
theorem accepted_again_iff {a b : Confidence} (ha : a.Proper) (hb : b.Proper) (v w : Float) :
    (a.mean b).Proper ∧
      ((a.weighted v b w).Proper ↔ (a.weightedSum v b w).isFinite = true) ∧
      ((countedWeight v + countedWeight w).isFinite = true →
        (a.weightedSum v b w).isFinite = true) ∧
      ∀ (origin : Origin) (c : Confidence), origin.score = .ok c →
        (ofValue c.value = .ok c ↔ origin.Bounded) := by
  refine ⟨ha.mean hb, proper_weighted_iff ha hb, fun h => (weightedSum_le ha hb h).1, ?_⟩
  intro origin c h
  rw [ofValue_eq_ok_iff, ← Origin.proper_iff_bounded h]
  exact and_iff_right rfl

/-- Two certain scores, with weights that together are too large for a double. -/
def overweighted : Origin := .weighted .certain 1e308 .certain 1e308

/-- The weighted mean of two certain scores is not within the bounds of a score. -/
theorem not_bounded_overweighted : ¬ overweighted.Bounded := by
  rintro ⟨-, -, h⟩
  exact absurd (h certain certain rfl rfl) (by decide +kernel)

/-- Checked construction would let their plain mean through again, but not the weighted one. -/
theorem accepted_overweighted : certain.Proper ∧
    (certain.mean certain).Proper ∧ ¬ (certain.weighted 1e308 certain 1e308).Proper ∧
    overweighted.score = .ok (certain.weighted 1e308 certain 1e308) ∧
    ofValue (certain.weighted 1e308 certain 1e308).value ≠
      .ok (certain.weighted 1e308 certain 1e308) ∧
    (Origin.mean .certain .certain).score = .ok (certain.mean certain) ∧
    ofValue (certain.mean certain).value = .ok (certain.mean certain) := by
  obtain ⟨hmean, hweighted, -, haccepted⟩ :=
    accepted_again_iff proper_certain proper_certain (1e308 : Float) 1e308
  refine ⟨proper_certain, hmean, ?_, rfl, ?_, rfl, ?_⟩
  · rw [hweighted]
    decide +kernel
  · rw [ne_eq, haccepted overweighted _ rfl]
    exact not_bounded_overweighted
  · rw [haccepted (.mean .certain .certain) _ rfl]
    exact ⟨trivial, trivial⟩

theorem not_proper_overweighted :
    certain.Proper ∧ ¬ (certain.weighted 1e308 certain 1e308).Proper := by decide +kernel

end SpeechTranscript.Confidence
