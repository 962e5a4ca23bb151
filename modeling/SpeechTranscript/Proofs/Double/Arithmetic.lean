import SpeechTranscript.Decimal.Exact
import SpeechTranscript.Proofs.Double.Rounding

/-!
# Sums and differences of doubles

The sum and the difference of two finite doubles are the rounded sum and difference of their
numbers, as long as these are not too large for a double.
-/

namespace SpeechTranscript.Double

open Float.Model Float.Model.UnpackedFloat

/-! ## Finite doubles -/

/-- The number of a finite normal form lies on its own grid. -/
theorem onGrid_unpackedValue {u : UnpackedFloat} (h : Normal u) : OnGrid (unpackedValue u) := by
  cases u with
  | finite sign m e hm =>
    have hlt : ((m : ℕ) : ℤ) < 2 ^ 53 := by exact_mod_cast h.1.lt
    refine ⟨sign.apply m, e, ?_, h.1.low, rfl⟩
    cases sign <;> simpa [Sign.apply] using hlt
  | _ => exact ⟨0, 0, by norm_num, by norm_num, by simp [unpackedValue]⟩

section Finite

variable {x low high : Float}

/-- What lies between finite doubles is finite. -/
theorem isFinite_of_le_of_le (hlow : low.isFinite = true) (hhigh : high.isFinite = true)
    (h : low ≤ x) (h' : x ≤ high) : x.isFinite = true := by
  change decide (UnpackedFloat.le low.toModel.unpack x.toModel.unpack = true) = true at h
  change decide (UnpackedFloat.le x.toModel.unpack high.toModel.unpack = true) = true at h'
  change low.toModel.unpack.isFinite = true at hlow
  change high.toModel.unpack.isFinite = true at hhigh
  show x.toModel.unpack.isFinite = true
  rw [decide_eq_true_iff] at h h'
  generalize low.toModel.unpack = a at *
  generalize high.toModel.unpack = b at *
  cases hx : x.toModel.unpack with
  | zero sign => rfl
  | finite sign m e hm => rfl
  | notANumber =>
    rw [hx] at h'
    contradiction
  -- either infinity is beyond one of the two
  | infinity sign =>
    rw [hx] at h h'
    cases sign with
    | positive => cases b <;> contradiction
    | negative => cases a <;> contradiction

/-- The exact value of a double, read as a number. -/
theorem value_eq_of_exact {negative : Bool} {m : ℕ} {e : ℤ}
    (h : Decimal.Exact.ofFloat x = .finite negative m e) :
    x.isFinite = true ∧ value x = (if negative then -(m : ℚ) else m) * 2 ^ e := by
  unfold Decimal.Exact.ofFloat at h
  show x.toModel.unpack.isFinite = true ∧ unpackedValue x.toModel.unpack = _
  cases hx : x.toModel.unpack with
  | notANumber => rw [hx] at h; contradiction
  | infinity sign => rw [hx] at h; contradiction
  | zero sign =>
    rw [hx] at h
    cases h
    exact ⟨rfl, by simp [unpackedValue]⟩
  | finite sign m' e' hm =>
    rw [hx] at h
    cases h
    refine ⟨rfl, ?_⟩
    rw [unpackedValue_finite]
    cases sign with
    | positive => rfl
    | negative => exact (neg_mul _ _).symm

end Finite

/-! ## Sums and differences -/

section Unpacked

variable {u v : UnpackedFloat}

/-- A finite normal form has its own number. -/
theorem hasValue_self (hu : u.isFinite = true) (h : Normal u) : HasValue u (unpackedValue u) where
  finite := hu
  normal := fun heq => by subst heq; exact h.1
  value_eq := rfl

theorem isFinite_neg : u.neg.isFinite = u.isFinite := by cases u <;> rfl

theorem normal_neg (h : Normal u) : Normal u.neg := by cases u <;> exact h

theorem unpackedValue_neg : unpackedValue u.neg = -unpackedValue u := by
  cases u with
  | finite sign m e hm =>
    show unpackedValue (.finite (-sign) m e hm) = -unpackedValue (.finite sign m e hm)
    cases sign with
    | positive => exact unpackedValue_negative hm
    | negative =>
      rw [unpackedValue_negative, neg_neg]
      rfl
  | _ => exact neg_zero.symm

/-- A difference is the sum with what is opposite. -/
theorem sub_eq_add_opposite (spec : Format) (u v : UnpackedFloat) :
    u.sub spec v = u.add spec v.neg := by
  cases u <;> cases v <;> try rfl
  rename_i s m e hm s' m' e' hm'
  cases s' with
  | positive => rfl
  | negative =>
    simp only [UnpackedFloat.sub, UnpackedFloat.add, UnpackedFloat.neg, Sign.apply,
      show -Sign.negative = Sign.positive from rfl, sub_neg_eq_add]

/-- Core adds in either order: two mantissas meet at the lower exponent, and of two signs that
differ neither one counts. -/
theorem unpackedAdd_comm (spec : Format) (u v : UnpackedFloat) : u.add spec v = v.add spec u := by
  cases u with
  | notANumber => cases v <;> rfl
  | infinity sign =>
    cases v with
    | infinity sign' => cases sign <;> cases sign' <;> rfl
    | _ => rfl
  | zero sign =>
    cases v with
    | zero sign' => cases sign <;> cases sign' <;> rfl
    | _ => rfl
  | finite sign m e hm =>
    cases v with
    | finite sign' n f hn =>
      show UnpackedFloat.normalize spec
          (sign.apply (m <<< (e - min e f).toNat : ℕ) + sign'.apply (n <<< (f - min e f).toNat : ℕ))
          (min e f) .positive =
        UnpackedFloat.normalize spec
          (sign'.apply (n <<< (f - min f e).toNat : ℕ) + sign.apply (m <<< (e - min f e).toNat : ℕ))
          (min f e) .positive
      rw [min_comm f e, Int.add_comm]
    | _ => rfl

/-- A finite normal form is its own rounded number. -/
theorem hasValue_rounded (hu : u.isFinite = true) (h : Normal u) :
    HasValue u (rounded (unpackedValue u)) := by
  rw [rounded_eq_self (onGrid_unpackedValue h)]
  exact hasValue_self hu h

/-- Core adds two mantissas at the lower one of their exponents. -/
theorem hasValue_add_finite {sign sign' : Sign} {m n : ℕ} {e f : ℤ} (hm : 0 < m) (hn : 0 < n) :
    HasValue (UnpackedFloat.add Format.binary64 (.finite sign m e hm) (.finite sign' n f hn))
      (rounded (unpackedValue (.finite sign m e hm) + unpackedValue (.finite sign' n f hn))) := by
  have hleft := shiftLeft_mul_zpow m e (min e f)
  have hright := shiftLeft_mul_zpow n f (min e f)
  rw [show e - ((e - min e f).toNat : ℤ) = min e f by omega] at hleft
  rw [show f - ((f - min e f).toNat : ℤ) = min e f by omega] at hright
  rw [unpackedValue_finite, unpackedValue_finite, ← hleft, ← hright]
  show HasValue (UnpackedFloat.normalize Format.binary64
    (sign.apply (m <<< (e - min e f).toNat : ℕ) + sign'.apply (n <<< (f - min e f).toNat : ℕ))
    (min e f) .positive) _
  generalize m <<< (e - min e f).toNat = m'
  generalize n <<< (f - min e f).toNat = n'
  have hsum : signed sign (m' * 2 ^ min e f) + signed sign' (n' * 2 ^ min e f) =
      ((sign.apply m' + sign'.apply n' : ℤ) : ℚ) * 2 ^ min e f := by
    cases sign <;> cases sign' <;> simp only [signed, Sign.apply] <;> push_cast <;> ring
  rw [hsum]
  exact hasValue_normalize _ _ _

/-- Core adds finite numbers and rounds the sum. -/
theorem hasValue_add (hu : u.isFinite = true) (hv : v.isFinite = true) (hnu : Normal u)
    (hnv : Normal v) :
    HasValue (u.add Format.binary64 v) (rounded (unpackedValue u + unpackedValue v)) := by
  cases u with
  | infinity sign => contradiction
  | notANumber => contradiction
  | zero sign =>
    have hzero : unpackedValue (.zero sign) + unpackedValue v = unpackedValue v := zero_add _
    rw [hzero]
    cases v with
    | infinity sign => contradiction
    | notANumber => contradiction
    | zero sign' =>
      rw [show unpackedValue (.zero sign') = 0 from rfl, rounded_zero]
      show HasValue (if sign == sign' then .zero sign else .zero .positive) 0
      -- zeros of different signs give the positive one
      split <;> exact hasValue_zero _
    | finite sign' n f hn => exact hasValue_rounded hv hnv
  | finite sign m e hm =>
    cases v with
    | infinity sign => contradiction
    | notANumber => contradiction
    | zero sign' =>
      have hzero : unpackedValue (.finite sign m e hm) + unpackedValue (.zero sign') =
          unpackedValue (.finite sign m e hm) := add_zero _
      rw [hzero]
      exact hasValue_rounded hu hnu
    | finite sign' n f hn => exact hasValue_add_finite hm hn

end Unpacked

section Sum

variable {x y : Float}

/-- Doubles are added in either order, also the infinite ones and those that are no number. -/
protected theorem add_comm (x y : Float) : x + y = y + x :=
  congrArg (fun u => Float.ofModel (Float.Model.pack u)) (unpackedAdd_comm _ _ _)

/-- The sum of finite doubles is their rounded sum, if that is small enough. -/
theorem value_add (hx : x.isFinite = true) (hy : y.isFinite = true)
    (h : |rounded (value x + value y)| < 2 ^ 1024) :
    (x + y).isFinite = true ∧ value (x + y) = rounded (value x + value y) :=
  (hasValue_add hx hy (normal_unpack _) (normal_unpack _)).pack h

/-- The difference of finite doubles is their rounded difference, if that is small enough. -/
theorem value_sub (hx : x.isFinite = true) (hy : y.isFinite = true)
    (h : |rounded (value x - value y)| < 2 ^ 1024) :
    (x - y).isFinite = true ∧ value (x - y) = rounded (value x - value y) := by
  have hneg := hasValue_add (u := x.toModel.unpack) (v := y.toModel.unpack.neg) hx
    (isFinite_neg.trans hy) (normal_unpack _) (normal_neg (normal_unpack _))
  rw [unpackedValue_neg, ← sub_eq_add_opposite, ← sub_eq_add_neg] at hneg
  exact hneg.pack h

end Sum

end SpeechTranscript.Double
