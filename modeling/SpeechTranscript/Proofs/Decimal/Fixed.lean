import SpeechTranscript.Decimal.Written
import SpeechTranscript.Proofs.Decimal.Rounding
import SpeechTranscript.Proofs.Json.Number

/-!
# Decimals with one place

A double with one decimal place is written as its tenths, rounded to the nearest whole number with
halves going to the even one: all digits but the last stand before the point.

* `roundDyadic_toEven_eq_nearest`: the rounding.
* `toList_fixed_one`: what is written.
-/

namespace SpeechTranscript.Decimal

open Double

/-! ## Halves to even -/

section Nearest

variable {num den : ℕ}

/-- A rest that is half of the divisor. -/
theorem mod_of_two_mul_eq {n : ℕ} (hpos : 0 < den) (h : 2 * num = 2 * den * n + den) :
    2 * (num % den) = den := by
  rw [← Nat.mul_mod_mul_left, h, Nat.mul_add_mod, Nat.mod_eq_of_lt (by omega)]

/-- A quotient with halves going to even is rounded as a double operation rounds. -/
theorem roundDiv_toEven_eq_nearest (num : ℕ) (h : 0 < den) :
    (roundDiv .toEven num den : ℤ) = nearest (num / den : ℚ) := by
  have hpos : (0 : ℚ) < den := by exact_mod_cast h
  obtain ⟨hlow, hhigh⟩ := roundDiv_bounds .toEven num h
  have heven : 2 * (num % den) = den → roundDiv .toEven num den % 2 = 0 := even_roundDiv_of_half
  generalize roundDiv .toEven num den = r at *
  have hbelow : (r : ℚ) - 1 / 2 ≤ num / den := by
    have hhigh' : (2 : ℚ) * (den * r) ≤ 2 * num + den := by exact_mod_cast hhigh
    rw [le_div_iff₀ hpos]
    linarith
  have habove : (num : ℚ) / den ≤ r + 1 / 2 := by
    have hlow' : (2 : ℚ) * num ≤ 2 * (den * r) + den := by exact_mod_cast hlow
    rw [div_le_iff₀ hpos]
    linarith
  refine (nearest_eq_of_near (by exact_mod_cast hbelow) (by exact_mod_cast habove) ?_).symm
  intro hodd
  -- an odd number is never the one that a half goes to
  have hno : 2 * (num % den) ≠ den := fun hhalf => by
    have := heven hhalf
    omega
  rw [Int.cast_natCast]
  constructor
  · refine hbelow.lt_of_ne fun heq => hno ?_
    rw [eq_div_iff hpos.ne'] at heq
    have hexact : (2 : ℚ) * num + den = 2 * den * r := by linarith
    -- half a unit below `r` is half a unit above the number before it
    obtain ⟨n, rfl⟩ : ∃ n, r = n + 1 := ⟨r - 1, by omega⟩
    refine mod_of_two_mul_eq (n := n) h ?_
    have hexact' : 2 * num + den = 2 * den * (n + 1) := by exact_mod_cast hexact
    rw [Nat.mul_add] at hexact'
    omega
  · refine habove.lt_of_ne fun heq => hno ?_
    rw [div_eq_iff hpos.ne'] at heq
    have hexact : (2 : ℚ) * num = 2 * den * r + den := by linarith
    exact mod_of_two_mul_eq h (by exact_mod_cast hexact)

/-- The binary number is rounded to the nearest whole number, ties to even. -/
theorem roundDyadic_toEven_eq_nearest (m : ℕ) (e : ℤ) :
    (roundDyadic .toEven m e : ℤ) = nearest ((m : ℚ) * 2 ^ e) := by
  obtain ⟨num, den, hden, heq, hratio⟩ := exists_roundDyadic_eq .toEven m e
  rw [heq, roundDiv_toEven_eq_nearest num hden, hratio]

end Nearest

/-! ## Tenths -/

/-- The nearest whole number is at most a half away. -/
theorem abs_nearest_sub_le (q : ℚ) : |(nearest q : ℚ) - q| ≤ 1 / 2 := by
  have hparts := Int.floor_add_fract q
  have hlow := Int.fract_nonneg q
  have hhigh := Int.fract_lt_one q
  unfold nearest
  rw [abs_le]
  split_ifs with hbelow habove
  · constructor <;> linarith
  · push_cast
    constructor <;> linarith
  · -- at a half the even neighbour is taken, which is a half away as well
    have hmod : ((⌊q⌋ % 2 : ℤ) : ℚ) = 0 ∨ ((⌊q⌋ % 2 : ℤ) : ℚ) = 1 := by
      have := Int.emod_two_eq ⌊q⌋
      exact_mod_cast this
    push_cast at hmod ⊢
    rcases hmod with hmod | hmod <;> rw [hmod] <;> constructor <;> linarith

/-- Half a unit below an even number is where rounding gets to it. -/
theorem nearest_lt_iff {q : ℚ} {k : ℤ} (heven : k % 2 = 0) : nearest q < k ↔ q < k - 1 / 2 := by
  constructor
  · intro h
    by_contra hle
    have hhalf : nearest (k - 1 / 2) = k :=
      nearest_eq_of_near le_rfl (by linarith) fun hodd => by omega
    have hmono := nearest_mono (not_lt.1 hle)
    omega
  · intro h
    have hnear := (abs_le.1 (abs_nearest_sub_le q)).2
    have hless : (nearest q : ℚ) < k := by linarith
    exact_mod_cast hless

/-- The tenths of a number, to the nearest whole one. -/
def tenths (q : ℚ) : ℕ := (nearest (10 * q)).toNat

section Tenths

variable {q : ℚ} (hq : 0 ≤ q)
include hq

/-- The tenths of a number that is not negative are the nearest ones. -/
theorem natCast_tenths : (tenths q : ℤ) = nearest (10 * q) := by
  refine Int.toNat_of_nonneg ?_
  have hmono := nearest_mono (mul_nonneg (by norm_num : (0 : ℚ) ≤ 10) hq)
  rwa [show nearest 0 = 0 from nearest_intCast 0] at hmono

theorem abs_tenths_sub_le : |(tenths q : ℚ) / 10 - q| ≤ 1 / 20 := by
  have hnear := abs_le.1 (abs_nearest_sub_le (10 * q))
  rw [← natCast_tenths hq, Int.cast_natCast] at hnear
  rw [abs_le]
  constructor <;> linarith

theorem tenths_lt_iff {k : ℕ} (heven : k % 2 = 0) : tenths q < k ↔ q < (k - 1 / 2) / 10 := by
  rw [← Nat.cast_lt (α := ℤ), natCast_tenths hq, nearest_lt_iff (by omega), Int.cast_natCast,
    lt_div_iff₀ (by norm_num), mul_comm]

end Tenths

section Written

variable {x : Float}

/-- A number of tenths has its last digit behind the point, and at least one before it. -/
theorem padded_two (n : ℕ) :
    padded 2 n = Nat.toDigits 10 (n / 10) ++ Nat.toDigits 10 (n % 10) := by
  have hlast : Nat.toDigits 10 (n % 10) = [Nat.digitChar (n % 10)] :=
    Nat.toDigits_of_lt_base (Nat.mod_lt n (by norm_num))
  rw [padded]
  rcases Nat.lt_or_ge n 10 with hless | hmore
  · rw [Nat.mod_eq_of_lt hless] at hlast ⊢
    rw [Nat.div_eq_of_lt hless, hlast]
    rfl
  · rw [hlast, Nat.toDigits_of_base_le (by norm_num) hmore]
    have hfront := List.length_pos_of_ne_nil (Json.isDigits_toDigits (n / 10)).1
    have hnone : 2 - (Nat.toDigits 10 (n / 10) ++ [Nat.digitChar (n % 10)]).length = 0 := by
      rw [List.length_append, List.length_singleton]
      omega
    rw [hnone]
    rfl

/-- A double that is not negative is written with one place as its tenths. Only nothing can have a
minus sign. -/
theorem toList_fixed_one (hx : x.isFinite = true) (hnonneg : 0 ≤ value x) :
    ∃ negative : Bool, (negative = true → tenths (value x) = 0) ∧
      (fixed 1 x).toList = (if negative then ['-'] else []) ++
        Nat.toDigits 10 (tenths (value x) / 10) ++
          '.' :: Nat.toDigits 10 (tenths (value x) % 10) := by
  obtain ⟨negative, m, e, hexact, hvalue, hzero⟩ := exists_exact_of_nonneg hx hnonneg
  have hten : Nat.pow 10 1 = 10 := rfl
  -- the number of tenths is what is rounded
  have hround : roundDyadic .toEven (m * 10) e = tenths (value x) := by
    have h := roundDyadic_toEven_eq_nearest (m * 10) e
    rw [tenths, hvalue, ← Int.toNat_natCast (roundDyadic .toEven (m * 10) e), h]
    push_cast
    ring_nf
  -- one digit stands behind the point
  have hlast : (Nat.toDigits 10 (tenths (value x) % 10)).length = 1 := by
    rw [Nat.toDigits_of_lt_base (Nat.mod_lt _ (by norm_num)), List.length_singleton]
  refine ⟨negative, fun hnegative => ?_, ?_⟩
  · rw [tenths, hvalue, hzero hnegative, Nat.cast_zero, zero_mul, mul_zero]
    exact congrArg Int.toNat (nearest_intCast 0)
  · rw [fixed, hexact]
    dsimp only
    rw [hten, hround, padded_two, List.length_append, hlast, Nat.add_sub_cancel, List.take_left,
      List.drop_left, if_neg one_ne_zero, String.toList_ofList]

end Written

end SpeechTranscript.Decimal
