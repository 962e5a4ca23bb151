import SpeechTranscript.Proofs.Double.Rounding

/-!
# From doubles to whole numbers

Core makes a whole number of a double by a shift of its mantissa that drops what is behind the
point. So a double that is not negative gives the whole part of its number, if this is a number of
64 bits.

* `toNat_toUInt64`: the whole part of a double.
-/

namespace SpeechTranscript.Double

open Float.Model Float.Model.UnpackedFloat

/-- Dropping what is behind the point gives the whole part of the magnitude. -/
theorem roundToInt_eq (sign : Sign) (m : ℕ) (e : ℤ) :
    roundToInt sign m e = sign.apply ⌊(m : ℚ) * 2 ^ e⌋₊ := by
  -- first the mantissa is made longer, down to the point, then shifted back if it is past it
  have hlonger := shiftLeft_mul_zpow m e 0
  set left := (e - 0).toNat
  set right := (0 - (e - left)).toNat with hright
  have htracks := (tracks_exact (m <<< left)).shiftRight right
  have hshift : ((m <<< left : ℕ) : ℚ) / 2 ^ right = m * 2 ^ e := by
    rw [← hlonger, div_eq_mul_inv, ← zpow_natCast, ← zpow_neg]
    congr 2
    omega
  have hfloor := htracks.floor_eq
  rw [hshift] at hfloor
  show sign.apply
    ((ExtendedMantissa.ofMantissaAndAccuracy (m <<< left) .exact) >>> right).mantissa = _
  rw [← Int.floor_toNat, hfloor, Int.toNat_natCast]

section ToUInt64

variable {x : Float}

/-- The whole part of a double that is not negative and small enough. -/
theorem toNat_toUInt64 (hx : x.isFinite = true) (hnonneg : 0 ≤ value x) (h : value x < 2 ^ 64) :
    x.toUInt64.toNat = ⌊value x⌋₊ := by
  have hwhole : (toInt 0 (↑UInt64.size - 1) x.toModel.unpack).toNat = ⌊value x⌋₊ := by
    change x.toModel.unpack.isFinite = true at hx
    unfold value at hnonneg ⊢
    cases hunpack : x.toModel.unpack with
    | infinity sign => rw [hunpack] at hx; contradiction
    | notANumber => rw [hunpack] at hx; contradiction
    | zero sign => rfl
    | finite sign m e hm =>
      rw [hunpack] at hnonneg
      cases sign with
      | positive =>
        rw [toInt, roundToInt_eq, unpackedValue_finite]
        rfl
      | negative =>
        rw [unpackedValue_negative] at hnonneg
        exact absurd (unpackedValue_pos (e := e) hm) (by linarith)
  -- within the range of 64 bits nothing is clamped
  have hlt : ⌊value x⌋₊ < UInt64.size := (Nat.floor_lt hnonneg).2 (by exact_mod_cast h)
  show (UInt64.ofNatClamp (toInt 0 (↑UInt64.size - 1) x.toModel.unpack).toNat).toNat = _
  rw [hwhole, UInt64.ofNatClamp, dif_pos hlt, UInt64.toNat_ofNatLT]

end ToUInt64

end SpeechTranscript.Double
