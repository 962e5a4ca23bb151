import SpeechTranscript.Proofs.Double.Nearest

/-!
# What doubles stand for

A finite double stands for a rational number, and doubles are compared as these numbers are. The
reading goes through core's unpacked form (a sign, a mantissa and an exponent), which is a normal
form: a mantissa of fewer than 53 binary digits occurs at the lowest exponent only. This is what
makes the comparison by exponent first the comparison of the numbers.

* `unpack_pack`: what is in normal form is packed without loss.
* `lt_iff`, `le_iff`: the order of finite doubles is the order of their numbers.
-/

namespace SpeechTranscript.Double

open Float.Model Float.Model.UnpackedFloat

/-- The number that an unpacked double stands for; zero if it stands for none. -/
def unpackedValue : UnpackedFloat → ℚ
  | .finite sign mantissa exponent _ => (sign.apply mantissa : ℤ) * 2 ^ exponent
  | _ => 0

/-- The number that a double stands for; zero if it stands for none. -/
def value (x : Float) : ℚ := unpackedValue x.toModel.unpack

/-! ## The normal form -/

/-- A mantissa of 53 binary digits, or of fewer at the lowest exponent. -/
structure NormalPair (mantissa : ℕ) (exponent : ℤ) : Prop where
  lt : mantissa < 2 ^ 53
  low : -1074 ≤ exponent
  full : 2 ^ 52 ≤ mantissa ∨ exponent = -1074

/-- A form that some double is unpacked to. -/
def Normal : UnpackedFloat → Prop
  | .finite _ mantissa exponent _ => NormalPair mantissa exponent ∧ exponent ≤ 971
  | _ => True

/-- The value of a mantissa with its leading digit in front. -/
theorem toNat_append_one (b : BitVec 52) : (1#1 ++ b).toNat = 2 ^ 52 + b.toNat := by
  rw [BitVec.toNat_append, ← Nat.shiftLeft_add_eq_or_of_lt b.isLt]
  rfl

/-- Every double is unpacked to a normal form. -/
theorem normal_unpack (x : Float.Model) : Normal x.unpack := by
  have hmantissa := (@unpackMantissa Format.binary64 x.toBits.toBitVec).isLt
  have hexponent := (@unpackExponent Format.binary64 x.toBits.toBitVec).isLt
  unfold Float.Model.unpack UnpackedFloat.unpack
  dsimp only
  split
  · -- the last exponent: the infinities and what is no number
    split <;> trivial
  · rename_i hnotlast
    split
    · -- the first exponent: the zeros and mantissas without a leading digit
      rename_i hsubnormal
      split
      · trivial
      · refine ⟨⟨?_, ?_, Or.inr ?_⟩, ?_⟩
        · exact hmantissa.trans (by norm_num)
        all_goals rw [hsubnormal]; decide
    · rename_i hnormal
      -- the stored exponent is neither the first nor the last
      have hfirst : (@unpackExponent Format.binary64 x.toBits.toBitVec).toNat ≠ 0 :=
        fun h => hnormal (BitVec.eq_of_toNat_eq h)
      have hlast : (@unpackExponent Format.binary64 x.toBits.toBitVec).toNat ≠ 2047 :=
        fun h => hnotlast (BitVec.eq_of_toNat_eq h)
      have hbias : ((Format.binary64.exponentBias : ℤ) +
          Format.binary64.mantissaBitsWithoutImplicit) = 1075 := by decide
      have hdigits := toNat_append_one (@unpackMantissa Format.binary64 x.toBits.toBitVec)
      refine ⟨⟨?_, ?_, Or.inl ?_⟩, ?_⟩
      · rw [hdigits]; simp only at hmantissa; omega
      · rw [hbias]; omega
      · rw [hdigits]; omega
      · rw [hbias]; simp only at hexponent; omega

/-- The sign that is packed is unpacked. -/
@[simp] theorem unpackSign_packComponents (sign : Sign) (e : BitVec 11) (m : BitVec 52) :
    unpackSign (packComponents Format.binary64 sign e m) = sign.toBitVec := by
  refine BitVec.eq_of_getLsbD_eq fun i hi => ?_
  obtain rfl : i = 0 := by omega
  simp only [unpackSign, packComponents, BitVec.getLsbD_cast, BitVec.getLsbD_extractLsb]
  rw [BitVec.getLsbD_append, BitVec.getLsbD_append]
  simp

@[simp] theorem ofBitVec_toBitVec (sign : Sign) : Sign.ofBitVec sign.toBitVec = sign := by
  cases sign <;> rfl

/-- Unpacking reads the three parts of what was put together. -/
theorem unpack_packComponents (sign : Sign) {e : BitVec 11} (m : BitVec 52) (hlast : e ≠ -1#11) :
    UnpackedFloat.unpack Format.binary64 (packComponents Format.binary64 sign e m) =
      if e = 0#11 then
        if h : m = 0#52 then .zero sign
        else .finite sign m.toNat (-1074)
          (Nat.pos_of_ne_zero fun hz => h (BitVec.eq_of_toNat_eq hz))
      else .finite sign (1#1 ++ m).toNat (e.toNat - 1075)
        (by rw [toNat_append_one]; positivity) := by
  unfold UnpackedFloat.unpack
  simp only [unpackMantissa_packComponents, unpackExponent_packComponents,
    unpackSign_packComponents, ofBitVec_toBitVec]
  rw [if_neg hlast]
  split
  · rename_i hzero
    split
    · rfl
    · subst hzero
      rfl
  · rfl

/-- A mantissa of 53 digits is packed without its leading one. -/
theorem unpack_packComponents_full (sign : Sign) {m : ℕ} {e : ℤ} (hm : 0 < m)
    (hpair : NormalPair m e) (hhigh : e ≤ 971) (hfull : 2 ^ 52 ≤ m) :
    UnpackedFloat.unpack Format.binary64 (packComponents Format.binary64 sign
      (BitVec.ofNat 11 (e + 1075).toNat) (BitVec.ofNat 52 m)) = .finite sign m e hm := by
  obtain ⟨hlt, hlow, -⟩ := hpair
  have hstored : (BitVec.ofNat 11 (e + 1075).toNat).toNat = (e + 1075).toNat := by
    rw [BitVec.toNat_ofNat, Nat.mod_eq_of_lt (by omega)]
  have hrest : (BitVec.ofNat 52 m).toNat = m - 2 ^ 52 := by
    rw [BitVec.toNat_ofNat, Nat.mod_eq_sub_mod hfull, Nat.mod_eq_of_lt (by omega)]
  -- the stored exponent is neither the last nor the first
  have hlast : BitVec.ofNat 11 (e + 1075).toNat ≠ -1#11 := by
    intro heq
    have := congrArg BitVec.toNat heq
    rw [hstored, show (-1#11).toNat = 2047 from rfl] at this
    omega
  have hfirst : BitVec.ofNat 11 (e + 1075).toNat ≠ 0#11 := by
    intro heq
    have := congrArg BitVec.toNat heq
    rw [hstored, show (0#11).toNat = 0 from rfl] at this
    omega
  rw [unpack_packComponents sign _ hlast, if_neg hfirst]
  congr 1
  · rw [toNat_append_one, hrest]
    omega
  · rw [hstored]
    omega

/-- A shorter mantissa is packed as it is. -/
theorem unpack_packComponents_low (sign : Sign) {m : ℕ} (hm : 0 < m) (hlow : m < 2 ^ 52) :
    UnpackedFloat.unpack Format.binary64 (packComponents Format.binary64 sign 0#11
      (BitVec.ofNat 52 m)) = .finite sign m (-1074) hm := by
  have hrest : (BitVec.ofNat 52 m).toNat = m := by
    rw [BitVec.toNat_ofNat, Nat.mod_eq_of_lt hlow]
  have hsome : BitVec.ofNat 52 m ≠ 0#52 := by
    intro heq
    have := congrArg BitVec.toNat heq
    rw [hrest, show (0#52).toNat = 0 from rfl] at this
    omega
  rw [unpack_packComponents sign _ (by decide), if_pos rfl, dif_neg hsome]
  congr 1

/-- A normal form is packed without loss. -/
theorem unpack_pack {u : UnpackedFloat} (h : Normal u) : (Float.Model.pack u).unpack = u := by
  unfold Float.Model.unpack Float.Model.pack
  cases u with
  | infinity sign => cases sign <;> rfl
  | notANumber => rfl
  | zero sign => cases sign <;> rfl
  | finite sign m e hm =>
    obtain ⟨hpair, hhigh⟩ := h
    have hbias : e + Format.binary64.exponentBias + Format.binary64.mantissaBitsWithoutImplicit =
        e + 1075 := by
      rw [add_assoc]
      rfl
    have hroom : ¬ 2 ^ Format.binary64.exponentBits ≤ (e + 1075).toNat + 1 := by
      simp only
      omega
    -- a mantissa is full exactly if its leading bit is the implicit one
    have hbits : m.log2 + 1 = Format.binary64.mantissaBits ↔ 2 ^ 52 ≤ m := by
      have hlow := Nat.le_log2 (n := m) (k := 52) hm.ne'
      have hhigh := (Nat.log2_lt (n := m) (k := 53) hm.ne').2 hpair.lt
      rw [show Format.binary64.mantissaBits = 53 from rfl, ← hlow]
      omega
    simp only [UnpackedFloat.pack, hbias, if_neg hroom, hbits]
    split
    · rename_i hfull
      exact unpack_packComponents_full sign hm hpair hhigh hfull
    · rename_i hshort
      obtain rfl : e = -1074 := hpair.full.resolve_left hshort
      exact unpack_packComponents_low sign hm (not_le.1 hshort)

/-! ## The order -/

/-- In normal form a lower exponent makes a smaller number. -/
theorem NormalPair.mul_pow_lt {m n : ℕ} {e f : ℤ} (hm : NormalPair m e) (hn : NormalPair n f)
    (h : e < f) : (m : ℚ) * 2 ^ e < n * 2 ^ f := by
  have hfull : 2 ^ 52 ≤ n := hn.full.resolve_right (by have := hm.low; omega)
  calc (m : ℚ) * 2 ^ e
      < 2 ^ 53 * 2 ^ e := mul_lt_mul_of_pos_right (by exact_mod_cast hm.lt) (two_zpow_pos e)
    -- one exponent further the leading digit stands in the 53rd place
    _ = 2 ^ 52 * 2 ^ (e + 1) := by rw [zpow_add₀ (by norm_num : (2 : ℚ) ≠ 0)]; ring
    _ ≤ 2 ^ 52 * 2 ^ f :=
        mul_le_mul_of_nonneg_left (zpow_le_zpow_right₀ (by norm_num) (by omega)) (by norm_num)
    _ ≤ n * 2 ^ f := mul_le_mul_of_nonneg_right (by exact_mod_cast hfull) (two_zpow_pos f).le

/-- In normal form the exponents decide, and between equal ones the mantissas. -/
theorem NormalPair.compare_eq {m n : ℕ} {e f : ℤ} (hm : NormalPair m e) (hn : NormalPair n f) :
    (compare e f).then (compare m n) = compare ((m : ℚ) * 2 ^ e) (n * 2 ^ f) := by
  rcases lt_trichotomy e f with hlt | rfl | hgt
  · rw [compare_lt_iff_lt.2 hlt, compare_lt_iff_lt.2 (hm.mul_pow_lt hn hlt)]
    rfl
  · rw [compare_eq_iff_eq.2 rfl, Ordering.eq_then]
    rcases lt_trichotomy m n with hlt | rfl | hgt
    · rw [compare_lt_iff_lt.2 hlt, compare_lt_iff_lt.2]
      exact mul_lt_mul_of_pos_right (by exact_mod_cast hlt) (two_zpow_pos e)
    · rw [compare_eq_iff_eq.2 rfl, compare_eq_iff_eq.2 rfl]
    · rw [compare_gt_iff_gt.2 hgt, compare_gt_iff_gt.2]
      exact mul_lt_mul_of_pos_right (by exact_mod_cast hgt) (two_zpow_pos e)
  · rw [compare_gt_iff_gt.2 hgt, compare_gt_iff_gt.2 (hn.mul_pow_lt hm hgt)]
    rfl

theorem unpackedValue_pos {m : ℕ} {e : ℤ} (hm : 0 < m) :
    0 < unpackedValue (.finite .positive m e hm) := by
  show (0 : ℚ) < ((m : ℤ) : ℚ) * 2 ^ e
  exact mul_pos (by exact_mod_cast hm) (two_zpow_pos e)

theorem unpackedValue_negative {m : ℕ} {e : ℤ} (hm : 0 < m) :
    unpackedValue (.finite .negative m e hm) = -unpackedValue (.finite .positive m e hm) := by
  simp [unpackedValue, Sign.apply]

/-- Negatives compare the other way round. -/
theorem compare_neg_neg (a b : ℚ) : compare (-a) (-b) = (compare a b).swap := by
  rcases lt_trichotomy a b with hlt | rfl | hgt
  · rw [compare_lt_iff_lt.2 hlt, compare_gt_iff_gt.2 (neg_lt_neg hlt)]
    rfl
  · rw [compare_eq_iff_eq.2 rfl, compare_eq_iff_eq.2 rfl]
    rfl
  · rw [compare_gt_iff_gt.2 hgt, compare_lt_iff_lt.2 (neg_lt_neg hgt)]
    rfl

/-- Finite normal forms are compared as their numbers are. -/
theorem compare_unpacked {u v : UnpackedFloat} (hu : u.isFinite = true) (hv : v.isFinite = true)
    (hnu : Normal u) (hnv : Normal v) :
    u.compare v = some (compare (unpackedValue u) (unpackedValue v)) := by
  cases u with
  | infinity sign => contradiction
  | notANumber => contradiction
  | zero sign =>
    cases v with
    | infinity sign => contradiction
    | notANumber => contradiction
    | zero sign' => exact congrArg some (compare_eq_iff_eq.2 rfl).symm
    | finite sign' n f hn =>
      have hpos := unpackedValue_pos (e := f) hn
      cases sign' with
      | positive => exact congrArg some (compare_lt_iff_lt.2 hpos).symm
      | negative =>
        rw [unpackedValue_negative]
        exact congrArg some (compare_gt_iff_gt.2 (neg_lt_zero.2 hpos)).symm
  | finite sign m e hm =>
    have hpos := unpackedValue_pos (e := e) hm
    cases v with
    | infinity sign => contradiction
    | notANumber => contradiction
    | zero sign' =>
      cases sign with
      | positive => exact congrArg some (compare_gt_iff_gt.2 hpos).symm
      | negative =>
        rw [unpackedValue_negative]
        exact congrArg some (compare_lt_iff_lt.2 (neg_lt_zero.2 hpos)).symm
    | finite sign' n f hn =>
      have hpos' := unpackedValue_pos (e := f) hn
      -- with one sign it is the mantissas and exponents that are compared
      have hpair := hnu.1.compare_eq hnv.1
      cases sign with
      | positive =>
        cases sign' with
        | positive => exact congrArg some hpair
        | negative =>
          rw [unpackedValue_negative]
          exact congrArg some (compare_gt_iff_gt.2 (by linarith)).symm
      | negative =>
        cases sign' with
        | positive =>
          rw [unpackedValue_negative]
          exact congrArg some (compare_lt_iff_lt.2 (by linarith)).symm
        | negative =>
          rw [unpackedValue_negative, unpackedValue_negative, compare_neg_neg]
          exact congrArg (fun o => some (Ordering.swap o)) hpair

section Order

variable {x y : Float}

theorem compare_eq (hx : x.isFinite = true) (hy : y.isFinite = true) :
    x.toModel.unpack.compare y.toModel.unpack = some (compare (value x) (value y)) :=
  compare_unpacked hx hy (normal_unpack _) (normal_unpack _)

/-- Finite doubles are ordered as their numbers are. -/
theorem lt_iff (hx : x.isFinite = true) (hy : y.isFinite = true) : x < y ↔ value x < value y := by
  rw [← compare_lt_iff_lt]
  show (decide (UnpackedFloat.lt x.toModel.unpack y.toModel.unpack = true)) = true ↔ _
  rw [decide_eq_true_iff, UnpackedFloat.lt, compare_eq hx hy, beq_iff_eq, Option.some.injEq]

theorem le_iff (hx : x.isFinite = true) (hy : y.isFinite = true) : x ≤ y ↔ value x ≤ value y := by
  rw [← compare_le_iff_le]
  show (decide (UnpackedFloat.le x.toModel.unpack y.toModel.unpack = true)) = true ↔ _
  rw [decide_eq_true_iff, UnpackedFloat.le, compare_eq hx hy, Option.any_some,
    Ordering.isLE_iff_ne_gt]

/-- A finite double with a positive value has a mantissa and no minus sign. -/
theorem exists_unpack_of_pos (hx : x.isFinite = true) (hpos : 0 < value x) :
    ∃ m e, ∃ hm : 0 < m, x.toModel.unpack = .finite .positive m e hm := by
  change x.toModel.unpack.isFinite = true at hx
  unfold value at hpos
  generalize x.toModel.unpack = u at *
  cases u with
  | infinity sign => contradiction
  | notANumber => contradiction
  | zero sign => exact absurd hpos (lt_irrefl _)
  | finite sign m e hm =>
    cases sign with
    | positive => exact ⟨m, e, hm, rfl⟩
    | negative =>
      rw [unpackedValue_negative] at hpos
      exact absurd (neg_pos.1 hpos) (unpackedValue_pos hm).not_gt

end Order

end SpeechTranscript.Double
