import SpeechTranscript.Proofs.Double.Products
import SpeechTranscript.Proofs.Double.Sides

/-!
# Decimals as doubles

A finite double is told by its sign and its number. So a decimal whose number is rounded to the
number of a double is read as that double, the sign of zero included.

* `eq_of_value_eq`: a number other than zero is the number of one finite double.
* `value_ofRatio`, `value_ofDecimal`: what is made of a fraction or a decimal is the nearest double.
* `ofDecimal_eq`: reading a decimal back.
-/

namespace SpeechTranscript.Double

open Float.Model Float.Model.UnpackedFloat Decimal

/-! ## Taking a double apart -/

theorem toBitVec_ofBitVec (b : BitVec 1) : (Sign.ofBitVec b).toBitVec = b := by
  revert b
  decide

/-- A double is put together from its three parts. -/
theorem packComponents_unpack (b : BitVec Format.binary64.numBits) :
    packComponents Format.binary64 (Sign.ofBitVec (unpackSign b)) (unpackExponent b)
      (unpackMantissa b) = b := by
  simp only [packComponents, toBitVec_ofBitVec, unpackSign, unpackExponent, unpackMantissa,
    BitVec.extractLsb]
  ext i hi
  grind

/-- What was put together from three parts and taken apart is put together the same way again. -/
theorem pack_unpack_packComponents (sign : Sign) {e : BitVec 11} (m : BitVec 52)
    (hlast : e ≠ -1#11) :
    UnpackedFloat.pack Format.binary64
      (UnpackedFloat.unpack Format.binary64 (packComponents Format.binary64 sign e m)) =
      packComponents Format.binary64 sign e m := by
  have hbits : Format.binary64.mantissaBits = 53 := rfl
  have hbias : (Format.binary64.exponentBias : ℤ) = 1023 := by decide
  have hlast' : e.toNat ≠ 2047 := fun heq => hlast (BitVec.eq_of_toNat_eq heq)
  rw [unpack_packComponents sign m hlast]
  split
  · rename_i hzero
    subst hzero
    split
    · rename_i hnone
      subst hnone
      rfl
    · rename_i hsome
      -- fewer digits than a mantissa with a leading one
      have hshort : m.toNat.log2 + 1 ≠ 53 := by
        have := (Nat.log2_lt fun heq => hsome (BitVec.eq_of_toNat_eq heq)).2 m.isLt
        omega
      simp only [UnpackedFloat.pack, hbits, hbias, if_neg hshort, BitVec.ofNat_toNat,
        BitVec.setWidth_eq]
      exact if_neg (by decide)
  · rename_i hfirst
    have hfirst' : e.toNat ≠ 0 := fun heq => hfirst (BitVec.eq_of_toNat_eq heq)
    have hfull : (1#1 ++ m).toNat.log2 + 1 = 53 := by
      have hpos : 2 ^ 52 + m.toNat ≠ 0 := by positivity
      have hlow := (Nat.le_log2 hpos).2 (Nat.le_add_right (2 ^ 52) m.toNat)
      have hhigh := (Nat.log2_lt (k := 53) hpos).2 (by omega)
      rw [toNat_append_one]
      omega
    have hstored : ((e.toNat : ℤ) - 1075 + 1023 + (52 : ℕ)).toNat = e.toNat := by omega
    have hrest : BitVec.ofNat 52 (1#1 ++ m).toNat = m := by
      refine BitVec.eq_of_toNat_eq ?_
      rw [BitVec.toNat_ofNat, toNat_append_one]
      omega
    simp only [UnpackedFloat.pack, hbits, hbias, if_pos hfull, hstored, hrest,
      BitVec.ofNat_toNat, BitVec.setWidth_eq]
    exact if_neg (by omega)

/-- Nothing is lost when a finite double is taken apart. -/
theorem pack_unpack {x : Float.Model} (h : x.unpack.isFinite = true) :
    Float.Model.pack x.unpack = x := by
  obtain ⟨bits, valid⟩ := x
  have hlast : @unpackExponent Format.binary64 bits.toBitVec ≠ -1#11 := by
    intro heq
    rw [Float.Model.unpack, UnpackedFloat.unpack, if_pos heq] at h
    split at h <;> contradiction
  have hbits := pack_unpack_packComponents
    (Sign.ofBitVec (@unpackSign Format.binary64 bits.toBitVec))
    (@unpackMantissa Format.binary64 bits.toBitVec) hlast
  rw [packComponents_unpack] at hbits
  simp only [Float.Model.pack, Float.Model.mk.injEq]
  exact congrArg UInt64.ofBitVec hbits

section Value

variable {x y : Float}

/-- A finite double is put together from what it is unpacked to. -/
theorem ofModel_pack_unpack (h : x.isFinite = true) :
    Float.ofModel (.pack x.toModel.unpack) = x := by
  cases x
  exact congrArg Float.ofModel (pack_unpack h)

/-- Normal forms of one number are the same. -/
theorem NormalPair.eq_of_mul_eq {m n : ℕ} {e f : ℤ} (hm : NormalPair m e) (hn : NormalPair n f)
    (h : (m : ℚ) * 2 ^ e = n * 2 ^ f) : m = n ∧ e = f := by
  have hcompare := hm.compare_eq hn
  rw [compare_eq_iff_eq.2 h, Ordering.then_eq_eq] at hcompare
  exact ⟨compare_eq_iff_eq.1 hcompare.2, compare_eq_iff_eq.1 hcompare.1⟩

/-- Finite doubles in normal form that have one value are the same, unless they are zeros. -/
theorem eq_of_unpackedValue_eq {u v : UnpackedFloat} (hu : u.isFinite = true)
    (hv : v.isFinite = true) (hnu : Normal u) (hnv : Normal v)
    (h : unpackedValue u = unpackedValue v) (hne : unpackedValue v ≠ 0) : u = v := by
  cases u with
  | infinity sign => contradiction
  | notANumber => contradiction
  | zero sign => exact absurd h.symm hne
  | finite sign m e hm =>
    cases v with
    | infinity sign => contradiction
    | notANumber => contradiction
    | zero sign => exact absurd rfl hne
    | finite sign' n f hn =>
      have hpos := unpackedValue_pos (e := e) hm
      have hpos' := unpackedValue_pos (e := f) hn
      cases sign with
      | positive =>
        cases sign' with
        | positive =>
          obtain ⟨rfl, rfl⟩ := hnu.1.eq_of_mul_eq hnv.1 h
          rfl
        | negative =>
          -- values of different signs would differ
          rw [unpackedValue_negative] at h
          linarith
      | negative =>
        rw [unpackedValue_negative] at h
        cases sign' with
        | positive => linarith
        | negative =>
          rw [unpackedValue_negative] at h
          obtain ⟨rfl, rfl⟩ := hnu.1.eq_of_mul_eq hnv.1 (neg_injective h)
          rfl

/-- A number other than zero is the number of one finite double. -/
theorem eq_of_value_eq (hx : x.isFinite = true) (hy : y.isFinite = true)
    (h : value x = value y) (hne : value y ≠ 0) : x = y := by
  rw [← ofModel_pack_unpack hx, ← ofModel_pack_unpack hy,
    eq_of_unpackedValue_eq hx hy (normal_unpack _) (normal_unpack _) h hne]

end Value

/-! ## Fractions -/

/-- The sign of a double that is negative or not. -/
def signOf (negative : Bool) : Sign := if negative then .negative else .positive

theorem abs_signed (sign : Sign) {q : ℚ} (h : 0 ≤ q) : |signed sign q| = q := by
  cases sign with
  | positive => exact abs_of_nonneg h
  | negative => rw [signed, abs_neg, abs_of_nonneg h]

section

variable (negative : Bool)

/-- A number in binary is rounded to a double, if it is not too large. -/
theorem value_ofDyadic {m : ℕ} {e : ℤ} (hm : 0 < m) (h : snapped (m * 2 ^ e) < 2 ^ 1024) :
    (ofDyadic negative m e).isFinite = true ∧
      value (ofDyadic negative m e) = signed (signOf negative) (snapped (m * 2 ^ e)) := by
  refine (hasValue_round (signOf negative) hm e).pack ?_
  rwa [abs_signed _ (snapped_nonneg (mul_nonneg (by positivity) (two_zpow_pos e).le))]

/-- A quotient cut to a whole number of halves, the last of which says whether anything was cut off,
is on the same side as the quotient of all whole numbers. -/
theorem sameSides_div (num : ℕ) {den : ℕ} (hden : 0 < den) :
    SameSides 1 (num / den : ℚ) ((2 * (num / den) + if num % den = 0 then 0 else 1 : ℕ) / 2) := by
  have hpos : (0 : ℚ) < den := by exact_mod_cast hden
  -- the remainder only says on which side of the half a number is
  have hparts : (num : ℚ) / den = (num / den : ℕ) + (num % den : ℕ) / den := by
    rw [div_eq_iff hpos.ne', add_mul, div_mul_cancel₀ _ hpos.ne']
    exact_mod_cast (Nat.div_add_mod' num den).symm
  have hrest : ((num % den : ℕ) : ℚ) / den < 1 := by
    rw [div_lt_one hpos]
    exact_mod_cast Nat.mod_lt num hden
  rw [hparts]
  split
  · rename_i hzero
    rw [hzero, Nat.cast_zero, zero_div, add_zero, add_zero, Nat.cast_mul, Nat.cast_two,
      mul_div_cancel_left₀ _ two_ne_zero]
    exact .refl _ _
  · rename_i hsome
    have hsome' : 0 < ((num % den : ℕ) : ℚ) / den :=
      div_pos (by exact_mod_cast Nat.pos_of_ne_zero hsome) hpos
    generalize ((num % den : ℕ) : ℚ) / den = r at *
    generalize num / den = q at *
    refine .of_between (n := q) ⟨?_, ?_⟩ ⟨?_, ?_⟩ <;> push_cast <;> linarith

/-- A shift of one part of a fraction or of the other scales the fraction. -/
theorem shiftLeft_div_shiftLeft (num den : ℕ) (shift : ℤ) :
    ((num <<< shift.toNat : ℕ) : ℚ) / (den <<< (-shift).toNat : ℕ) = num / den / 2 ^ (-shift) := by
  have hsplit : (2 : ℚ) ^ shift = 2 ^ shift.toNat / 2 ^ (-shift).toNat := by
    rw [← zpow_natCast, ← zpow_natCast, ← zpow_sub₀ two_ne_zero]
    congr 1
    omega
  rw [Nat.shiftLeft_eq, Nat.shiftLeft_eq, zpow_neg, div_inv_eq_mul, hsplit]
  push_cast
  field_simp

/-- The double nearest to a fraction. -/
theorem value_ofRatio {num den : ℕ} (hnum : 0 < num) (hden : 0 < den)
    (h : snapped (num / den) < 2 ^ 1024) :
    (ofRatio negative num den).isFinite = true ∧
      value (ofRatio negative num den) = signed (signOf negative) (snapped (num / den)) := by
  have hpos : (0 : ℚ) < num / den := by positivity
  have hlog := le_log_div hnum hden 0 0
  rw [zpow_zero, mul_one, mul_one, add_zero, add_zero] at hlog
  unfold ofRatio
  dsimp only
  generalize hshift : (55 : ℤ) + den.log2 - num.log2 = shift
  generalize hscaled : num <<< shift.toNat = scaled
  generalize hunit : den <<< (-shift).toNat = unit
  have hunit_pos : 0 < unit := by
    rw [← hunit, Nat.shiftLeft_eq]
    positivity
  have hquotient : (scaled : ℚ) / unit = num / den / 2 ^ (-shift) := by
    rw [← hscaled, ← hunit]
    exact shiftLeft_div_shiftLeft num den shift
  -- what is cut off is no longer needed to round
  have hsides := (sameSides_div scaled hunit_pos).mul (two_zpow_pos (-shift))
  rw [hquotient, one_mul, div_mul_cancel₀ _ (two_zpow_pos _).ne', div_mul_eq_mul_div, mul_div_assoc,
    div_eq_mul_inv (2 ^ (-shift)), ← zpow_sub_one₀ two_ne_zero] at hsides
  have hsnapped := hsides.snapped_eq hpos (by omega)
  have hmantissa : 0 < 2 * (scaled / unit) + if scaled % unit = 0 then 0 else 1 := by
    have := (hsides.lt_iff 0).1 (by simpa using hpos)
    rw [Int.cast_zero, zero_mul] at this
    exact_mod_cast (mul_pos_iff_of_pos_right (two_zpow_pos _)).1 this
  rw [hsnapped] at h ⊢
  exact value_ofDyadic negative hmantissa h

/-! ## Decimals -/

/-- Zero has the sign that it is given. -/
theorem ofDyadic_zero : (ofDyadic negative 0 0).isFinite = true ∧
    value (ofDyadic negative 0 0) = signed (signOf negative) 0 := by
  have hexact : Exact.ofFloat (ofDyadic negative 0 0) = .finite negative 0 0 := by
    revert negative
    decide +kernel
  obtain ⟨hfinite, hvalue⟩ := value_eq_of_exact hexact
  refine ⟨hfinite, hvalue.trans ?_⟩
  cases negative <;> simp [signed, signOf]

/-- What is less than half of the least grid unit is rounded to zero. -/
theorem snapped_eq_zero {q : ℚ} (hq : 0 ≤ q) (h : q < 2 ^ (-1075 : ℤ)) : snapped q = 0 := by
  -- no grid is finer than the least one, so it is less than half a step on any
  have hgrid : q / 2 ^ gridExponent q < 1 / 2 := by
    rw [div_lt_iff₀ (two_zpow_pos _)]
    calc q < 2 ^ (-1075 : ℤ) := h
      _ = 1 / 2 * 2 ^ (-1074 : ℤ) := by
        rw [show (-1075 : ℤ) = -1074 - 1 by norm_num, zpow_sub_one₀ two_ne_zero]
        ring
      _ ≤ 1 / 2 * 2 ^ gridExponent q :=
        mul_le_mul_of_nonneg_left (zpow_le_zpow_right₀ one_le_two (le_gridExponent q))
          (by norm_num)
  have hnonneg : 0 ≤ q / 2 ^ gridExponent q := div_nonneg hq (two_zpow_pos _).le
  rw [snapped, nearest_eq_of_near (n := 0) (by push_cast; linarith) (by push_cast; linarith)
    (by omega), Int.cast_zero, zero_mul]

/-- A decimal whose exponent is far below zero is less than half of the least grid unit. -/
theorem decimal_lt_of_vanishing {digits : ℕ} {exponent : ℤ}
    (h : digits.log2 + 3 * exponent < vanishingPower) :
    (digits : ℚ) * 10 ^ exponent < 2 ^ (-1075 : ℤ) := by
  unfold vanishingPower at h
  have hdigits : (digits : ℚ) < 2 ^ (digits.log2 + 1) := by
    exact_mod_cast Nat.lt_log2_self (n := digits)
  -- a negative power of ten is less than that of eight
  have hpower : (10 : ℚ) ^ exponent ≤ 2 ^ (3 * exponent) := by
    have hneg : exponent = -((-exponent).toNat : ℤ) := by omega
    rw [zpow_mul, hneg, zpow_neg, zpow_neg, zpow_natCast, zpow_natCast]
    exact inv_anti₀ (by positivity) (pow_le_pow_left₀ (by norm_num) (by norm_num) _)
  calc (digits : ℚ) * 10 ^ exponent
      ≤ 2 ^ (digits.log2 + 1) * 2 ^ (3 * exponent) :=
        mul_le_mul hdigits.le hpower (zpow_pos (by norm_num) _).le (by positivity)
    _ = 2 ^ ((digits.log2 : ℤ) + 1 + 3 * exponent) := by
        rw [zpow_add₀ two_ne_zero ((digits.log2 : ℤ) + 1)]
        norm_cast
    _ < 2 ^ (-1075 : ℤ) := zpow_lt_zpow_right₀ one_lt_two (by omega)

/-- A decimal whose exponent is far above zero is too large for a double. -/
theorem pow_le_snapped_of_outOfRange {digits : ℕ} {exponent : ℤ} (hdigits : 0 < digits)
    (h : outOfRangePower < exponent) : 2 ^ 1024 ≤ snapped ((digits : ℚ) * 10 ^ exponent) := by
  unfold outOfRangePower at h
  -- the bound is on the grid, so rounding does not get below it
  have hgrid : snapped (2 ^ 1024) = 2 ^ 1024 :=
    snapped_eq_self (by positivity) ⟨1, 1024, by norm_num, by norm_num, by norm_num⟩
  rw [← hgrid]
  refine snapped_mono (by positivity) ?_
  calc (2 : ℚ) ^ 1024 = (2 ^ 64) ^ 16 := by rw [← pow_mul]
    _ ≤ (10 ^ 25) ^ 16 := pow_le_pow_left₀ (by norm_num) (by norm_num) 16
    _ = 10 ^ ((25 * 16 : ℕ) : ℤ) := by rw [← pow_mul, zpow_natCast]
    _ ≤ 10 ^ exponent := zpow_le_zpow_right₀ (by norm_num) h.le
    _ ≤ digits * 10 ^ exponent :=
      le_mul_of_one_le_left (zpow_pos (by norm_num) _).le (by exact_mod_cast hdigits)

/-- The double nearest to a decimal. -/
theorem value_ofDecimal (digits : ℕ) (exponent : ℤ)
    (h : snapped (digits * 10 ^ exponent) < 2 ^ 1024) :
    (ofDecimal negative digits exponent).isFinite = true ∧
      value (ofDecimal negative digits exponent) =
        signed (signOf negative) (snapped (digits * 10 ^ exponent)) := by
  unfold ofDecimal
  split
  · rename_i hsmall
    have hzero : snapped (digits * 10 ^ exponent) = 0 := by
      rcases hsmall with rfl | hvanishing
      · simp
      · exact snapped_eq_zero (mul_nonneg (Nat.cast_nonneg _) (zpow_nonneg (by norm_num) _))
          (decimal_lt_of_vanishing hvanishing)
    rw [hzero]
    exact ofDyadic_zero negative
  · rename_i hsmall
    have hdigits : 0 < digits := Nat.pos_of_ne_zero fun hzero => hsmall (.inl hzero)
    -- a number beyond the range would be too large after rounding, too
    have hroom : ¬ outOfRangePower < exponent := by
      intro hlarge
      have hle := pow_le_snapped_of_outOfRange hdigits hlarge
      exact lt_irrefl _ (hle.trans_lt h)
    rw [if_neg hroom]
    have hten : ∀ n : ℕ, 0 < Nat.pow 10 n := fun n => Nat.pow_pos (by norm_num)
    have hfraction : (digits : ℚ) * 10 ^ exponent =
        (digits * Nat.pow 10 exponent.toNat : ℕ) / (Nat.pow 10 (-exponent).toNat : ℕ) := by
      have hsplit : (10 : ℚ) ^ exponent = 10 ^ exponent.toNat / 10 ^ (-exponent).toNat := by
        rw [← zpow_natCast, ← zpow_natCast, ← zpow_sub₀ (by norm_num)]
        congr 1
        omega
      rw [hsplit, mul_div_assoc']
      simp only [Nat.pow_eq]
      push_cast
      rfl
    rw [hfraction] at h ⊢
    exact value_ofRatio negative (Nat.mul_pos hdigits (hten _)) (hten _) h

/-- The exact form of a double that is not zero is a normal form. -/
theorem normalPair_of_exact {x : Float} {m : ℕ} {e : ℤ}
    (h : Exact.ofFloat x = .finite negative m e) (hm : 0 < m) : NormalPair m e ∧ e ≤ 971 := by
  have hnormal := normal_unpack x.toModel
  unfold Exact.ofFloat at h
  cases hx : x.toModel.unpack with
  | finite sign m' e' hm' =>
    rw [hx] at h hnormal
    cases h
    exact hnormal
  | _ =>
    rw [hx] at h
    cases h <;> exact absurd hm (lt_irrefl 0)

/-- A double of the greatest exponent is below 2^1024. -/
theorem NormalPair.mul_pow_lt_of_le {m : ℕ} {e : ℤ} (hm : NormalPair m e) (he : e ≤ 971) :
    (m : ℚ) * 2 ^ e < 2 ^ 1024 := by
  calc (m : ℚ) * 2 ^ e
      < 2 ^ 53 * 2 ^ e := mul_lt_mul_of_pos_right (by exact_mod_cast hm.lt) (two_zpow_pos e)
    _ ≤ 2 ^ 53 * 2 ^ ((971 : ℕ) : ℤ) :=
        mul_le_mul_of_nonneg_left (zpow_le_zpow_right₀ one_le_two he) (by positivity)
    _ = 2 ^ 1024 := by rw [zpow_natCast, ← pow_add]

/-- A decimal that is rounded to the number of a double that is not zero is read as that double. -/
theorem ofDecimal_eq_of_pos {x : Float} {m digits : ℕ} {e exponent : ℤ}
    (hx : Exact.ofFloat x = .finite negative m e) (hm : 0 < m)
    (h : snapped (digits * 10 ^ exponent) = m * 2 ^ e) :
    ofDecimal negative digits exponent = x := by
  obtain ⟨hfinite, hvalue⟩ := value_eq_of_exact hx
  obtain ⟨hpair, hhigh⟩ := normalPair_of_exact negative hx hm
  have hlt : (m : ℚ) * 2 ^ e < 2 ^ 1024 := hpair.mul_pow_lt_of_le hhigh
  obtain ⟨hfinite', hvalue'⟩ := value_ofDecimal negative digits exponent (h ▸ hlt)
  have hpos : (0 : ℚ) < m * 2 ^ e := mul_pos (by exact_mod_cast hm) (two_zpow_pos e)
  -- a double that is not zero is told by its value
  refine eq_of_value_eq hfinite' hfinite ?_ ?_
  · rw [hvalue', hvalue, h]
    cases negative
    · rfl
    · exact (neg_mul _ _).symm
  · rw [hvalue]
    cases negative
    · exact hpos.ne'
    · rw [if_pos rfl, neg_mul]
      exact (neg_lt_zero.2 hpos).ne

/-- The two zeros. -/
theorem ofDyadic_zero_eq {x : Float} {e : ℤ} (hx : Exact.ofFloat x = .finite negative 0 e) :
    ofDyadic negative 0 0 = x := by
  have hfinite := (value_eq_of_exact hx).1
  rw [← ofModel_pack_unpack hfinite]
  unfold Exact.ofFloat at hx
  cases hunpack : x.toModel.unpack with
  | zero sign =>
    rw [hunpack] at hx
    cases hx
    cases sign <;> rfl
  | finite sign m e' hm =>
    rw [hunpack] at hx
    cases hx
    exact absurd hm (lt_irrefl 0)
  | _ =>
    rw [hunpack] at hx
    cases hx

/-- A decimal that is rounded to the number of a double is read as that double. -/
theorem ofDecimal_eq {x : Float} {m digits : ℕ} {e exponent : ℤ}
    (hx : Exact.ofFloat x = .finite negative m e)
    (h : snapped (digits * 10 ^ exponent) = m * 2 ^ e) (hzero : m = 0 → digits = 0) :
    ofDecimal negative digits exponent = x := by
  rcases Nat.eq_zero_or_pos m with rfl | hm
  · rw [hzero rfl, ofDecimal, if_pos (.inl rfl)]
    exact ofDyadic_zero_eq negative hx
  · exact ofDecimal_eq_of_pos negative hx hm h

end

end SpeechTranscript.Double
