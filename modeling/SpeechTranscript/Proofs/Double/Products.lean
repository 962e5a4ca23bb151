import SpeechTranscript.Proofs.Double.Arithmetic

/-!
# Products and quotients of doubles

Core multiplies the mantissas, or divides one of them, made longer, by the other, and rounds once.
So the product and the quotient of finite doubles are the rounded product and quotient of their
numbers, as long as these are not too large for a double. A whole number is turned into the double
nearest to it by such a product.

* `value_mul`, `value_div`: the numbers of products and quotients.
* `value_neg`, `value_abs`: the numbers of opposites and magnitudes.
* `value_ofNat`, `value_ofInt`: the numbers of doubles made of whole numbers.
-/

namespace SpeechTranscript.Double

open Float.Model Float.Model.UnpackedFloat

/-! ## Products -/

section Unpacked

variable {sign sign' : Sign} {m n : ℕ} {e f : ℤ}

/-- A number with a sign is rounded with its sign. -/
theorem rounded_signed (sign : Sign) {q : ℚ} (h : 0 ≤ q) :
    rounded (signed sign q) = signed sign (snapped q) := by
  cases sign with
  | positive => exact rounded_of_nonneg h
  | negative => rw [signed, rounded_neg, rounded_of_nonneg h, signed]

/-- Signs and magnitudes are multiplied apart. -/
theorem signed_mul (a b : ℚ) :
    signed sign a * signed sign' b = signed (sign * sign') (a * b) := by
  cases sign with
  | positive =>
    cases sign' with
    | positive => rfl
    | negative => exact mul_neg a b
  | negative =>
    cases sign' with
    | positive => exact neg_mul a b
    | negative => exact neg_mul_neg a b

/-- Signs and magnitudes are divided apart. -/
theorem signed_div (a b : ℚ) :
    signed sign a / signed sign' b = signed (sign / sign') (a / b) := by
  cases sign with
  | positive =>
    cases sign' with
    | positive => rfl
    | negative => exact div_neg a
  | negative =>
    cases sign' with
    | positive => exact neg_div b a
    | negative => exact neg_div_neg_eq a b

/-- A mantissa that is long enough, or far enough down, is not coarser than its grid. -/
theorem le_gridExponent_of_full (hm : 0 < m) (h : 2 ^ 52 ≤ m ∨ e ≤ -1074) :
    e ≤ gridExponent (m * 2 ^ e) := by
  rcases h with hfull | hlow
  · have hpos : (0 : ℚ) < m * 2 ^ e := mul_pos (by exact_mod_cast hm) (two_zpow_pos e)
    have hlog : e + 52 ≤ Int.log 2 ((m : ℚ) * 2 ^ e) := by
      refine (Int.zpow_le_iff_le_log (by norm_num : 1 < 2) hpos).1 ?_
      have hfull' : (2 : ℚ) ^ 52 ≤ m := by exact_mod_cast hfull
      rw [show e + 52 = e + ((52 : ℕ) : ℤ) from rfl, zpow_add₀ (by norm_num), zpow_natCast,
        mul_comm]
      exact_mod_cast mul_le_mul_of_nonneg_right hfull' (two_zpow_pos e).le
    exact le_max_of_le_left (by omega)
  · exact hlow.trans (le_gridExponent _)

/-- The product of two mantissas is long enough or far enough down. -/
theorem NormalPair.full_mul (hm : NormalPair m e) (hn : NormalPair n f) (hm' : 0 < m)
    (hn' : 0 < n) : 2 ^ 52 ≤ m * n ∨ e + f ≤ -1074 := by
  rcases hm.full with hfull | rfl
  · exact .inl (hfull.trans (Nat.le_mul_of_pos_right m hn'))
  · rcases hn.full with hfull | rfl
    · exact .inl (hfull.trans (Nat.le_mul_of_pos_left n hm'))
    · exact .inr (by norm_num)

/-- Core multiplies the mantissas and rounds the product. -/
theorem hasValue_mul_finite (hm : 0 < m) (hn : 0 < n) (hfull : 2 ^ 52 ≤ m * n ∨ e + f ≤ -1074) :
    HasValue (UnpackedFloat.mul Format.binary64 (.finite sign m e hm) (.finite sign' n f hn))
      (rounded (unpackedValue (.finite sign m e hm) * unpackedValue (.finite sign' n f hn))) := by
  have hpos : 0 < m * n := Nat.mul_pos hm hn
  have hround := hasValue_roundWithAccuracy (sign * sign') hpos (tracks_exact _)
    (le_gridExponent_of_full hpos hfull)
  have hproduct : (m : ℚ) * 2 ^ e * (n * 2 ^ f) = (m * n : ℕ) * 2 ^ (e + f) := by
    rw [zpow_add₀ (by norm_num : (2 : ℚ) ≠ 0)]
    push_cast
    ring
  rw [unpackedValue_finite, unpackedValue_finite, signed_mul, hproduct, rounded_signed]
  · exact hround
  · exact mul_nonneg (Nat.cast_nonneg _) (two_zpow_pos _).le

variable {u v : UnpackedFloat}

/-- Core multiplies finite numbers and rounds the product. -/
theorem hasValue_mul (hu : u.isFinite = true) (hv : v.isFinite = true) (hnu : Normal u)
    (hnv : Normal v) :
    HasValue (u.mul Format.binary64 v) (rounded (unpackedValue u * unpackedValue v)) := by
  cases u with
  | infinity sign => contradiction
  | notANumber => contradiction
  | zero sign =>
    rw [show unpackedValue (.zero sign) = 0 from rfl, zero_mul, rounded_zero]
    cases v with
    | infinity sign => contradiction
    | notANumber => contradiction
    | zero sign' => exact hasValue_zero _
    | finite sign' n f hn => exact hasValue_zero _
  | finite sign m e hm =>
    cases v with
    | infinity sign => contradiction
    | notANumber => contradiction
    | zero sign' =>
      rw [show unpackedValue (.zero sign') = 0 from rfl, mul_zero, rounded_zero]
      exact hasValue_zero _
    | finite sign' n f hn => exact hasValue_mul_finite hm hn (hnu.1.full_mul hnv.1 hm hn)

/-! ## Quotients -/

/-- What core notes of the rest of a division. -/
theorem tracks_div (m : ℕ) {n : ℕ} (hn : 0 < n) :
    Tracks (.ofMantissaAndAccuracy (m / n) (accuracyOfFraction (m % n) n)) (m / n : ℚ) := by
  have hpos : (0 : ℚ) < n := by exact_mod_cast hn
  -- what the quotient leaves out is the remainder over the divisor
  have hrest : (m : ℚ) / n - (m / n : ℕ) = (m % n : ℕ) / n := by
    rw [sub_eq_iff_eq_add, div_eq_iff hpos.ne', add_mul, div_mul_cancel₀ _ hpos.ne', add_comm]
    exact_mod_cast (Nat.div_add_mod' m n).symm
  have hlt := Nat.mod_lt m hn
  unfold Tracks
  rw [mantissa_ofMantissaAndAccuracy, hrest]
  generalize m % n = r at *
  unfold accuracyOfFraction
  split
  · rename_i hzero
    subst hzero
    show (((0 : ℕ) : ℚ) / n) = 0
    rw [Nat.cast_zero, zero_div]
  · rename_i hsome
    have hr : (0 : ℚ) < (r : ℚ) / n := div_pos (by exact_mod_cast Nat.pos_of_ne_zero hsome) hpos
    -- more than half, half or less than half of a unit is left out
    cases horder : compare (2 * r) n with
    | lt =>
      refine ⟨hr, ?_⟩
      rw [div_lt_iff₀ hpos]
      have : (2 : ℚ) * r < n := by exact_mod_cast Nat.compare_eq_lt.1 horder
      linarith
    | eq =>
      show (r : ℚ) / n = 1 / 2
      rw [div_eq_iff hpos.ne']
      have : (2 : ℚ) * r = n := by exact_mod_cast Nat.compare_eq_eq.1 horder
      linarith
    | gt =>
      refine ⟨?_, (div_lt_one hpos).2 (by exact_mod_cast hlt)⟩
      rw [lt_div_iff₀ hpos]
      have : (n : ℚ) < 2 * r := by exact_mod_cast Nat.compare_eq_gt.1 horder
      linarith

/-- A quotient has as many binary digits as its parts say, up to one. -/
theorem le_log_div (hm : 0 < m) (hn : 0 < n) (e f : ℤ) :
    (m.log2 : ℤ) + e - (n.log2 + f) - 1 ≤ Int.log 2 ((m : ℚ) * 2 ^ e / (n * 2 ^ f)) := by
  have hn' : (0 : ℚ) < n * 2 ^ f := mul_pos (by exact_mod_cast hn) (two_zpow_pos f)
  have hm' : (0 : ℚ) < m * 2 ^ e := mul_pos (by exact_mod_cast hm) (two_zpow_pos e)
  refine (Int.zpow_le_iff_le_log (by norm_num : 1 < 2) (div_pos hm' hn')).1 ?_
  rw [le_div_iff₀ hn']
  -- the dividend from below and the divisor from above, each by its leading bit
  have hbelow : (2 : ℚ) ^ m.log2 ≤ m := by exact_mod_cast Nat.log2_self_le hm.ne'
  have habove : (n : ℚ) ≤ 2 ^ (n.log2 + 1) := by
    exact_mod_cast (Nat.lt_log2_self (n := n)).le
  push_cast
  calc (2 : ℚ) ^ ((m.log2 : ℤ) + e - (n.log2 + f) - 1) * (n * 2 ^ f)
      ≤ 2 ^ ((m.log2 : ℤ) + e - (n.log2 + f) - 1) * (2 ^ (n.log2 + 1) * 2 ^ f) :=
        mul_le_mul_of_nonneg_left (mul_le_mul_of_nonneg_right habove (two_zpow_pos f).le)
          (two_zpow_pos _).le
    _ = 2 ^ m.log2 * 2 ^ e := by
        rw [← zpow_natCast, ← zpow_natCast, ← zpow_add₀ two_ne_zero, ← zpow_add₀ two_ne_zero,
          ← zpow_add₀ two_ne_zero]
        congr 1
        push_cast
        ring
    _ ≤ m * 2 ^ e := mul_le_mul_of_nonneg_right hbelow (two_zpow_pos e).le

/-- The exponent down to which core divides. -/
theorem targetExponent_sub (hm : 0 < m) (hn : 0 < n) :
    Format.binary64.targetExponent (totalExponent m e - totalExponent n f) ≤
      gridExponent ((m : ℚ) * 2 ^ e / (n * 2 ^ f)) := by
  have hlog := le_log_div hm hn e f
  rw [targetExponent_eq_max, totalExponent, totalExponent]
  unfold gridExponent
  omega

/-- If core's quotient has no digits, it was divided down to the finest grid. -/
theorem le_of_quotient_eq_zero (hm : 0 < m) (hn : 0 < n) {t : ℤ}
    (ht : t ≤ Format.binary64.targetExponent (totalExponent m e - totalExponent n f))
    (ht' : t ≤ e - f) (h : m <<< (e - f - t).toNat / n = 0) : t ≤ -1074 := by
  rw [targetExponent_eq_max, totalExponent, totalExponent] at ht
  by_contra hlarge
  -- above the finest grid the dividend is made longer than the divisor
  have hshift : (n.log2 : ℤ) + 1 ≤ m.log2 + (e - f - t).toNat := by omega
  have hlt : m <<< (e - f - t).toNat < n := (Nat.div_eq_zero_iff_lt hn).1 h
  refine absurd hlt (not_lt.2 ?_)
  calc n ≤ 2 ^ (n.log2 + 1) := Nat.lt_log2_self.le
    _ ≤ 2 ^ (m.log2 + (e - f - t).toNat) := Nat.pow_le_pow_right (by norm_num) (by omega)
    _ = 2 ^ m.log2 * 2 ^ (e - f - t).toNat := pow_add _ _ _
    _ ≤ m * 2 ^ (e - f - t).toNat := Nat.mul_le_mul_right _ (Nat.log2_self_le hm.ne')
    _ = m <<< (e - f - t).toNat := (Nat.shiftLeft_eq _ _).symm

/-- A quotient without digits lies below the finest grid, and core finds that grid for it. -/
theorem targetExponent_zero_eq {q : ℚ} {t : ℤ} (ht : t ≤ -1074) (hq : 0 < q) (hq' : q < 1) :
    Format.binary64.targetExponent (totalExponent 0 t) = gridExponent (q * 2 ^ t) := by
  have hless : q * 2 ^ t < 2 ^ (-1074 : ℤ) := by
    calc q * 2 ^ t < 1 * 2 ^ t := mul_lt_mul_of_pos_right hq' (two_zpow_pos t)
      _ = 2 ^ t := one_mul _
      _ ≤ 2 ^ (-1074 : ℤ) := zpow_le_zpow_right₀ one_le_two ht
  have hlog := (Int.lt_zpow_iff_log_lt (by norm_num : 1 < 2)
    (mul_pos hq (two_zpow_pos t))).1 (by exact_mod_cast hless)
  rw [targetExponent_eq_max, totalExponent, Nat.log2_zero, gridExponent]
  push_cast
  omega

/-- Core divides one mantissa, made longer, by the other and rounds the quotient. -/
theorem hasValue_div_finite (hm : 0 < m) (hn : 0 < n) :
    HasValue (UnpackedFloat.div Format.binary64 (.finite sign m e hm) (.finite sign' n f hn))
      (rounded (unpackedValue (.finite sign m e hm) / unpackedValue (.finite sign' n f hn))) := by
  have hn' : (0 : ℚ) < n := by exact_mod_cast hn
  have hquotient : (0 : ℚ) < m * 2 ^ e / (n * 2 ^ f) :=
    div_pos (mul_pos (by exact_mod_cast hm) (two_zpow_pos e)) (mul_pos hn' (two_zpow_pos f))
  rw [unpackedValue_finite, unpackedValue_finite, signed_div, rounded_signed _ hquotient.le]
  set t := min (e - f) (Format.binary64.targetExponent (totalExponent m e - totalExponent n f))
    with ht
  show HasValue (roundWithAccuracy Format.binary64 (sign / sign') (m <<< (e - f - t).toNat / n) t
    (accuracyOfFraction (m <<< (e - f - t).toNat % n) n)) _
  have hle : t ≤ e - f := min_le_left _ _
  have hgrid := targetExponent_sub (e := e) (f := f) hm hn
  -- shifting the dividend does not change the quotient
  have hsame : ((m <<< (e - f - t).toNat : ℕ) / n : ℚ) * 2 ^ t = m * 2 ^ e / (n * 2 ^ f) := by
    have hlonger := shiftLeft_mul_zpow m (e - f) t
    rw [show e - f - ((e - f - t).toNat : ℤ) = t by omega, zpow_sub₀ two_ne_zero] at hlonger
    rw [div_mul_eq_mul_div, hlonger]
    field_simp
  have hzero : m <<< (e - f - t).toNat / n = 0 → t ≤ -1074 :=
    le_of_quotient_eq_zero hm hn (min_le_right _ _) hle
  have htracks := tracks_div (m <<< (e - f - t).toNat) hn
  generalize m <<< (e - f - t).toNat = longer at *
  have hpos : (0 : ℚ) < longer / n := by
    refine pos_of_mul_pos_left ?_ (two_zpow_pos t).le
    rwa [hsame]
  have hround : t ≤ gridExponent ((longer : ℚ) / n * 2 ^ t) := by
    rw [hsame]
    exact (min_le_right _ _).trans hgrid
  -- the target that core computes from the lengths is the grid of the quotient
  have htarget : Format.binary64.targetExponent (totalExponent (longer / n) t) =
      gridExponent ((longer : ℚ) / n * 2 ^ t) := by
    rcases Nat.eq_zero_or_pos (longer / n) with hnone | hsome
    · rw [hnone]
      refine targetExponent_zero_eq (hzero hnone) hpos ((div_lt_one hn').2 ?_)
      exact_mod_cast (Nat.div_eq_zero_iff_lt hn).1 hnone
    · obtain ⟨hlow, hhigh⟩ := htracks.bounds
      rw [mantissa_ofMantissaAndAccuracy] at hlow hhigh
      exact targetExponent_eq hsome (by linarith) (by linarith)
  have hresult := hasValue_roundWithAccuracy_of_target (sign / sign') hpos htarget htracks hround
  rwa [hsame] at hresult

variable {u v : UnpackedFloat}

/-- Core divides finite numbers and rounds the quotient, unless it divides by zero. -/
theorem hasValue_div (hu : u.isFinite = true) (hv : v.isFinite = true)
    (hzero : unpackedValue v ≠ 0) :
    HasValue (u.div Format.binary64 v) (rounded (unpackedValue u / unpackedValue v)) := by
  cases v with
  | infinity sign => contradiction
  | notANumber => contradiction
  | zero sign => exact absurd rfl hzero
  | finite sign' n f hn =>
    cases u with
    | infinity sign => contradiction
    | notANumber => contradiction
    | zero sign =>
      rw [show unpackedValue (.zero sign) = 0 from rfl, zero_div, rounded_zero]
      exact hasValue_zero _
    | finite sign m e hm => exact hasValue_div_finite hm hn

end Unpacked

/-! ## Doubles -/

/-- Rounding goes by the magnitude. -/
theorem abs_rounded (q : ℚ) : |rounded q| = rounded |q| := by
  rcases le_total 0 q with h | h
  · rw [abs_of_nonneg h, abs_of_nonneg (rounded_nonneg h)]
  · rw [abs_of_nonpos h, ← abs_neg, ← rounded_neg]
    exact abs_of_nonneg (rounded_nonneg (neg_nonneg.2 h))

/-- A number that is not above a power of two is not rounded above it. -/
theorem abs_rounded_le {q : ℚ} (k : ℕ) (h : |q| ≤ 2 ^ k) : |rounded q| ≤ 2 ^ k := by
  have hpow : rounded (2 ^ k) = 2 ^ k :=
    rounded_eq_self ⟨1, k, by norm_num, by omega, by rw [Int.cast_one, one_mul, zpow_natCast]⟩
  rw [abs_rounded, ← hpow]
  exact rounded_mono h

/-- What is far from the largest double is still below it after rounding. -/
theorem abs_rounded_lt {q : ℚ} (h : |q| ≤ 2 ^ 100) : |rounded q| < 2 ^ 1024 :=
  (abs_rounded_le 100 h).trans_lt (pow_lt_pow_right₀ one_lt_two (by norm_num))

section Product

variable {x y : Float} {u : UnpackedFloat}

/-- The product of finite doubles is their rounded product, if that is small enough. -/
theorem value_mul (hx : x.isFinite = true) (hy : y.isFinite = true)
    (h : |rounded (value x * value y)| < 2 ^ 1024) :
    (x * y).isFinite = true ∧ value (x * y) = rounded (value x * value y) :=
  (hasValue_mul hx hy (normal_unpack _) (normal_unpack _)).pack h

/-- The quotient of finite doubles is their rounded quotient, if that is small enough. -/
theorem value_div (hx : x.isFinite = true) (hy : y.isFinite = true) (hzero : value y ≠ 0)
    (h : |rounded (value x / value y)| < 2 ^ 1024) :
    (x / y).isFinite = true ∧ value (x / y) = rounded (value x / value y) :=
  (hasValue_div hx hy hzero).pack h

/-- The negative of a double has the negative value. -/
theorem value_neg (hx : x.isFinite = true) : (-x).isFinite = true ∧ value (-x) = -value x := by
  have hunpack := unpack_pack (normal_neg (normal_unpack x.toModel))
  constructor
  · show (Float.Model.pack x.toModel.unpack.neg).unpack.isFinite = true
    rw [hunpack, isFinite_neg]
    exact hx
  · show unpackedValue (Float.Model.pack x.toModel.unpack.neg).unpack = -value x
    rw [hunpack, unpackedValue_neg]
    rfl

theorem isFinite_abs : u.abs.isFinite = u.isFinite := by cases u <;> rfl

theorem normal_abs (h : Normal u) : Normal u.abs := by cases u <;> exact h

/-- A double without its sign has the absolute value. -/
theorem unpackedValue_abs : unpackedValue u.abs = |unpackedValue u| := by
  cases u with
  | finite sign m e hm =>
    have hpos := unpackedValue_pos (e := e) hm
    cases sign with
    | positive => exact (abs_of_pos hpos).symm
    | negative =>
      rw [unpackedValue_negative, abs_neg]
      exact (abs_of_pos hpos).symm
  | _ => exact abs_zero.symm

/-- The absolute value of a double is exact. -/
theorem value_abs (hx : x.isFinite = true) : x.abs.isFinite = true ∧ value x.abs = |value x| := by
  have hunpack := unpack_pack (normal_abs (normal_unpack x.toModel))
  constructor
  · show (Float.Model.pack x.toModel.unpack.abs).unpack.isFinite = true
    rw [hunpack, isFinite_abs]
    exact hx
  · show unpackedValue (Float.Model.pack x.toModel.unpack.abs).unpack = |value x|
    rw [hunpack, unpackedValue_abs]
    rfl

end Product

/-! ## Whole numbers -/

section Whole

variable {n : ℕ}

theorem onGrid_natCast (h : n < 2 ^ 53) : OnGrid n :=
  ⟨n, 0, by rw [Nat.abs_cast]; exact_mod_cast h, by norm_num, by simp⟩

theorem rounded_natCast (h : n < 2 ^ 53) : rounded n = n := rounded_eq_self (onGrid_natCast h)

/-- A whole number below 2^53 is converted exactly. -/
theorem value_ofUInt64 (h : n < 2 ^ 53) :
    n.toUInt64.toFloat.isFinite = true ∧ value n.toUInt64.toFloat = n := by
  have hword : n.toUInt64.toNat = n := UInt64.toNat_ofNat_of_lt (by
    show n < 2 ^ 64
    omega)
  have hvalue := hasValue_normalize n 0 .positive
  rw [zpow_zero, mul_one, Int.cast_natCast, rounded_eq_self (onGrid_natCast h)] at hvalue
  have hsmall : |(n : ℚ)| < 2 ^ 1024 := by
    rw [Nat.abs_cast]
    exact_mod_cast h.trans (Nat.pow_lt_pow_right (by norm_num) (by norm_num))
  show (Float.ofModel (.pack (.normalize Format.binary64 n.toUInt64.toNat 0 .positive))).isFinite =
    true ∧ value (.ofModel (.pack (.normalize Format.binary64 n.toUInt64.toNat 0 .positive))) = n
  rw [hword]
  exact hvalue.pack hsmall

/-- Core multiplies a whole number, made longer, by a power of ten, here one. -/
theorem hasValue_ofScientific (hn : 0 < n) :
    HasValue (UnpackedFloat.ofScientific Format.binary64 n 0) (rounded n) := by
  have hshift : n <<< 53 = n * 2 ^ 53 := Nat.shiftLeft_eq _ _
  -- the digits are shifted so far that no bit is lost in the product
  have hlonger : 0 < n <<< 53 := by omega
  have hlong : 2 ^ 52 ≤ n <<< 53 * 10 ^ (0 : ℤ).toNat := by
    rw [hshift]
    show 2 ^ 52 ≤ n * 2 ^ 53 * 1
    omega
  have hproduct : HasValue
      (UnpackedFloat.mul Format.binary64 (.finite .positive (n <<< 53) (-53) hlonger)
        (.finite .positive (10 ^ (0 : ℤ).toNat) 0 (by norm_num))) _ :=
    hasValue_mul_finite hlonger (by norm_num) (.inl hlong)
  have hsame : unpackedValue (.finite .positive (n <<< 53) (-53) hlonger) *
      unpackedValue (.finite .positive (10 ^ (0 : ℤ).toNat) 0 (by norm_num)) = n := by
    rw [unpackedValue_finite, unpackedValue_finite, hshift, signed, signed]
    push_cast
    norm_num [mul_assoc]
  rw [hsame] at hproduct
  unfold UnpackedFloat.ofScientific
  rw [dif_neg hn.ne', if_neg (by norm_num), if_neg (by
    have : (0 : ℤ) ≤ 2 ^ Format.binary64.exponentBits := by positivity
    omega), if_pos le_rfl]
  exact hproduct

/-- A whole number becomes the double nearest to it, if it is small enough. -/
theorem value_ofNat (h : n ≤ 2 ^ 100) :
    (Float.ofNat n).isFinite = true ∧ value (Float.ofNat n) = rounded n := by
  have hbound : |rounded n| < 2 ^ 1024 :=
    abs_rounded_lt (by rw [Nat.abs_cast]; exact_mod_cast h)
  show (Float.ofScientific n false 0).isFinite = true ∧
    value (Float.ofScientific n false 0) = rounded n
  unfold Float.ofScientific
  split
  · -- a short one is exact, and is multiplied by one
    rename_i hsmall
    obtain ⟨hfinite, hvalue⟩ := value_ofUInt64 hsmall.1
    have hone : value (1.0 : Float) = 1 := by
      have h : Decimal.Exact.ofFloat 1.0 = .finite false (2 ^ 52) (-52) := by decide +kernel
      rw [(value_eq_of_exact h).2]
      norm_num
    have hproduct : rounded (value n.toUInt64.toFloat * value (1.0 : Float)) = rounded n := by
      rw [hvalue, hone, mul_one]
    have hfinal := value_mul hfinite (y := 1.0) (by decide +kernel) (by rwa [hproduct])
    rw [hproduct] at hfinal
    exact hfinal
  · rename_i hlarge
    have hpos : 0 < n := by
      rcases Nat.eq_zero_or_pos n with rfl | hpos
      · exact absurd ⟨by norm_num, by norm_num⟩ hlarge
      · exact hpos
    exact (hasValue_ofScientific hpos).pack hbound

/-- An integer is converted to the double nearest to it. -/
theorem value_ofInt {n : ℤ} (h : n.natAbs ≤ 2 ^ 100) :
    (Float.ofInt n).isFinite = true ∧ value (Float.ofInt n) = rounded n := by
  cases n with
  | ofNat n => exact value_ofNat h
  | negSucc n =>
    obtain ⟨hfinite, hvalue⟩ := value_ofNat (n := n.succ) h
    have hneg := value_neg hfinite
    rw [hvalue, ← rounded_neg] at hneg
    rw [Int.cast_negSucc]
    exact hneg

end Whole

end SpeechTranscript.Double
