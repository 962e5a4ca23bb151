import Mathlib
import SpeechTranscript.Decimal.Shortest
import SpeechTranscript.Proofs.Double.Exact

/-!
# The shortest decimal of a double

The search for a decimal goes from coarse grids to fine ones and takes the first whole number of
units that lies in the interval of the double. What lies in the interval is rounded to the double,
and on the seventeenth grid from the leading digit on there is something in it. So the search always
finds a decimal, and this is read back as the double.

* `Interval.mem_ofDyadic`: the ends of the interval.
* `snapped_eq_of_mem`: what lies in it is rounded to the double.
* `snapped_shortest`: the decimal that is found rounds to the double.
* `shortest_bounds`, `shortest_unit_bounds`: how long it is, and in which units it is given.
-/

namespace SpeechTranscript.Decimal

/-! ## The number of digits -/

theorem lt_pow_length_toDigits (n : ℕ) : n < 10 ^ (Nat.toDigits 10 n).length :=
  (Nat.length_toDigits_le_iff (by norm_num) Nat.length_toDigits_pos).1 le_rfl

/-- A number is not below the power of ten that has as many digits. -/
theorem pow_length_toDigits_le {n : ℕ} (hn : 0 < n) :
    10 ^ ((Nat.toDigits 10 n).length - 1) ≤ n := by
  have hlength : 0 < (Nat.toDigits 10 n).length := Nat.length_toDigits_pos
  rcases Nat.eq_zero_or_pos ((Nat.toDigits 10 n).length - 1) with hone | hmore
  · rw [hone, pow_zero]
    exact hn
  · by_contra hlt
    have := (Nat.length_toDigits_le_iff (by norm_num) hmore).2 (not_le.1 hlt)
    omega

/-- A number lies between the powers of ten that its digits are counted by. -/
theorem digitCount_bounds {n : ℕ} (hn : 0 < n) :
    0 < digitCount n ∧ 10 ^ (digitCount n - 1) ≤ n ∧ n < 10 ^ digitCount n := by
  induction n using digitCount.induct with
  | case1 n hshort =>
    rw [digitCount, if_pos hshort]
    exact ⟨Nat.length_toDigits_pos, pow_length_toDigits_le hn, lt_pow_length_toDigits n⟩
  | case2 n hlong ih =>
    rw [digitCount, if_neg hlong]
    obtain ⟨hcount, hlow, hhigh⟩ := ih (by omega)
    have hblock : 10 ^ 18 = 1000000000000000000 := by norm_num
    have hpos : 0 < 1000000000000000000 := by norm_num
    generalize 1000000000000000000 = block at *
    generalize digitCount (n / block) = c at *
    -- the digits of the quotient with eighteen more behind them
    rw [Nat.le_div_iff_mul_le hpos, ← hblock, ← pow_add] at hlow
    rw [Nat.div_lt_iff_lt_mul hpos, ← hblock, ← pow_add] at hhigh
    rw [Nat.add_comm 18]
    refine ⟨Nat.add_pos_left hcount 18, ?_, hhigh⟩
    rw [Nat.sub_add_comm hcount]
    exact hlow

namespace Interval

variable {i : Interval} {k : ℤ} {tie : Tie}

/-- A number inside an interval. -/
def Mem (i : Interval) (q : ℚ) : Prop :=
  if i.closed then i.value ≤ q * i.denominator + i.below ∧ q * i.denominator ≤ i.value + i.above
  else i.value < q * i.denominator + i.below ∧ q * i.denominator < i.value + i.above

/-- The test in whole numbers tells what is inside. -/
theorem contains_iff_mem {d : ℕ} : i.contains d = true ↔ i.Mem d := by
  unfold contains Mem
  cases i.closed with
  | true =>
    simp only [if_true, Bool.and_eq_true, decide_eq_true_eq]
    norm_cast
  | false =>
    simp only [Bool.false_eq_true, if_false, Bool.and_eq_true, decide_eq_true_eq]
    norm_cast

theorem pow_ten_pos (k : ℤ) : (0 : ℚ) < (Nat.pow 10 k.toNat : ℕ) := by
  exact_mod_cast Nat.pow_pos (by norm_num)

/-- The power of ten on one side of a fraction is the power on the other side times the unit. -/
theorem pow_ten_eq (k : ℤ) :
    ((Nat.pow 10 k.toNat : ℕ) : ℚ) = 10 ^ k * (Nat.pow 10 (-k).toNat : ℕ) := by
  simp only [Nat.pow_eq]
  push_cast
  rw [← zpow_natCast, ← zpow_natCast, ← zpow_add₀ (by norm_num)]
  congr 1
  omega

/-- A change of the unit. -/
theorem mem_inUnits {q : ℚ} : (i.inUnits k).Mem q ↔ i.Mem (q * 10 ^ k) := by
  have hup := pow_ten_pos (-k)
  unfold Mem inUnits
  dsimp only
  push_cast
  rw [pow_ten_eq k]
  generalize ((Nat.pow 10 (-k).toNat : ℕ) : ℚ) = up at hup
  have hscaled : q * (i.denominator * (10 ^ k * up)) = q * 10 ^ k * i.denominator * up := by ring
  rw [hscaled, ← add_mul, ← add_mul]
  simp only [mul_le_mul_iff_left₀ hup, mul_lt_mul_iff_left₀ hup]

/-! ## The leading digit -/

/-- The value of an interval. -/
def number (i : Interval) : ℚ := i.value / i.denominator

/-- Counted in other units, the middle of an interval is the same number. -/
theorem number_inUnits (i : Interval) (k : ℤ) : (i.inUnits k).number * 10 ^ k = i.number := by
  have hup := pow_ten_pos (-k)
  have hten : (10 : ℚ) ^ k ≠ 0 := zpow_ne_zero _ (by norm_num)
  unfold number inUnits
  dsimp only
  push_cast
  rw [pow_ten_eq k]
  field_simp

/-- The value lies between the powers of ten around its leading digit. -/
theorem leadingExponent_bounds (hvalue : 0 < i.value) (hdenominator : 0 < i.denominator) :
    10 ^ i.leadingExponent ≤ i.number ∧ i.number < 10 ^ (i.leadingExponent + 1) := by
  have hpos : (0 : ℚ) < i.denominator := by exact_mod_cast hdenominator
  have hpos' : (0 : ℚ) < i.value := by exact_mod_cast hvalue
  unfold leadingExponent number
  split
  · -- from one on, the digits in front of the point are counted
    rename_i hwhole
    obtain ⟨hcount, hlow, hhigh⟩ := digitCount_bounds (Nat.div_pos hwhole hdenominator)
    generalize digitCount (i.value / i.denominator) = c at *
    rw [Nat.le_div_iff_mul_le hdenominator] at hlow
    rw [Nat.div_lt_iff_lt_mul hdenominator] at hhigh
    rw [le_div_iff₀ hpos, div_lt_iff₀ hpos, sub_add_cancel, zpow_natCast,
      show (c : ℤ) - 1 = ((c - 1 : ℕ) : ℤ) by omega, zpow_natCast]
    exact ⟨by exact_mod_cast hlow, by exact_mod_cast hhigh⟩
  · -- below one, it is the zeros behind the point
    rename_i hbelow
    have hsome : 0 < (i.denominator - 1) / i.value := Nat.div_pos (by omega) hvalue
    obtain ⟨hcount, hlow, hhigh⟩ := digitCount_bounds hsome
    generalize digitCount ((i.denominator - 1) / i.value) = c at *
    rw [Nat.le_div_iff_mul_le hvalue] at hlow
    rw [Nat.div_lt_iff_lt_mul hvalue] at hhigh
    rw [show Int.neg (c : ℤ) = -(c : ℤ) from rfl, le_div_iff₀ hpos, div_lt_iff₀ hpos,
      show -(c : ℤ) + 1 = -((c - 1 : ℕ) : ℤ) by omega, zpow_neg, zpow_neg, zpow_natCast,
      zpow_natCast, inv_mul_le_iff₀ (by positivity), lt_inv_mul_iff₀ (by positivity)]
    constructor
    · exact_mod_cast (by omega : i.denominator ≤ 10 ^ c * i.value)
    · exact_mod_cast (by omega : 10 ^ (c - 1) * i.value < i.denominator)

/-! ## The search -/

/-- What is found is inside. -/
theorem contains_of_nearestInside? {d : ℕ} (h : i.nearestInside? tie = some d) :
    i.contains d = true := by
  unfold nearestInside? at h
  dsimp only at h
  split at h
  · rename_i hlow hhigh
    -- if both neighbours are inside, either one may be taken
    split at h <;> (cases h; assumption)
  · rename_i hlow hhigh
    cases h
    exact hlow
  · rename_i hlow hhigh
    cases h
    exact hhigh
  · cases h

/-- If the interval reaches more than half a unit to both sides, the nearest whole number is
inside. -/
theorem isSome_nearestInside? (hdenominator : 0 < i.denominator)
    (hbelow : i.denominator < 2 * i.below) (habove : i.denominator < 2 * i.above) : (i.nearestInside? tie).isSome = true := by
  have hparts : i.value / i.denominator * i.denominator + i.value % i.denominator = i.value :=
    Nat.div_add_mod' _ _
  -- one of the two neighbours is no more than half a unit away
  have hside : i.contains (i.value / i.denominator) = true ∨
      i.contains (i.value / i.denominator + 1) = true := by
    unfold contains
    dsimp only
    rw [Nat.add_mul, Nat.one_mul]
    rcases Nat.le_total (2 * (i.value % i.denominator)) i.denominator with hlow | hhigh
    · left
      cases i.closed <;>
        simp only [if_true, Bool.false_eq_true, if_false, Bool.and_eq_true, decide_eq_true_eq] <;>
        omega
    · right
      have := Nat.mod_lt i.value hdenominator
      cases i.closed <;>
        simp only [if_true, Bool.false_eq_true, if_false, Bool.and_eq_true, decide_eq_true_eq] <;>
        omega
  unfold nearestInside?
  dsimp only
  rcases hside with h | h <;> rw [h] <;> split <;> first | rfl | simp_all

/-- The search ends at the last of its grids, if not before. -/
theorem firstInside_spec (grids : ℕ) {last : ℤ}
    (hlast : ((i.inUnits last).nearestInside? tie).isSome = true) :
    (i.inUnits (i.firstInside tie (grids + 1) (last + grids)).2).contains
        (i.firstInside tie (grids + 1) (last + grids)).1 = true ∧
      last ≤ (i.firstInside tie (grids + 1) (last + grids)).2 ∧
      (i.firstInside tie (grids + 1) (last + grids)).2 ≤ last + grids := by
  induction grids with
  | zero =>
    obtain ⟨d, hd⟩ := Option.isSome_iff_exists.1 hlast
    rw [Nat.cast_zero, add_zero, firstInside, hd]
    exact ⟨contains_of_nearestInside? hd, le_rfl, le_rfl⟩
  | succ grids ih =>
    rw [firstInside]
    split
    · -- found on this grid, else the search goes on with one that is finer
      rename_i d hd
      exact ⟨contains_of_nearestInside? hd, by push_cast; omega, le_rfl⟩
    · rw [show last + ((grids + 1 : ℕ) : ℤ) - 1 = last + grids by push_cast; ring]
      exact ⟨ih.1, ih.2.1, ih.2.2.trans (by push_cast; omega)⟩

end Interval

/-- No more zeros are tried than asked for. -/
theorem zerosBetween_le (low high most : ℕ) : zerosBetween low high most ≤ most := by
  induction most with
  | zero => exact le_rfl
  | succ t ih =>
    rw [zerosBetween]
    split
    · exact le_rfl
    · exact ih.trans (Nat.le_succ t)

/-! ## The numbers that round to a double -/

section Rounds

open Double

variable {m : ℕ} {e : ℤ}

/-- The grid of a number in the range of a normal form. -/
theorem gridExponent_eq {q : ℚ} (he : -1074 ≤ e) (hq : 0 < q) (hhigh : q < 2 ^ (e + 53))
    (hlow : 2 ^ (e + 52) ≤ q ∨ e = -1074) : gridExponent q = e := by
  have hlog : Int.log 2 q < e + 53 := (Int.lt_zpow_iff_log_lt (by norm_num : 1 < 2) hq).1 hhigh
  unfold gridExponent
  rcases hlow with hlow | rfl
  · have := (Int.zpow_le_iff_le_log (by norm_num : 1 < 2) hq).1 hlow
    omega
  · omega

/-- What is within half a step of a double is rounded to it, and a tie to the even one. -/
theorem snapped_eq_of_near {n : ℕ} {q : ℚ} (hgrid : gridExponent q = e)
    (hlow : (n - 1 / 2) * 2 ^ e ≤ q) (hhigh : q ≤ (n + 1 / 2) * 2 ^ e)
    (hodd : n % 2 = 1 → (n - 1 / 2) * 2 ^ e < q ∧ q < (n + 1 / 2) * 2 ^ e) :
    snapped q = n * 2 ^ e := by
  have hpos := two_zpow_pos e
  rw [snapped, hgrid, nearest_eq_of_near (n := n), Int.cast_natCast]
  · rw [le_div_iff₀ hpos]
    exact_mod_cast hlow
  · rw [div_le_iff₀ hpos]
    exact_mod_cast hhigh
  · intro h
    rw [lt_div_iff₀ hpos, div_lt_iff₀ hpos]
    exact_mod_cast hodd (by omega)

/-- How far the interval of a double reaches below it, in units of its mantissa. -/
def reach (m : ℕ) (e : ℤ) : ℚ := if m = 2 ^ 52 ∧ -1074 < e then 1 / 4 else 1 / 2

theorem one_shiftLeft_pos (n : ℕ) : (0 : ℚ) < (1 <<< n : ℕ) := by
  rw [Nat.one_shiftLeft]
  positivity

/-- A quarter of the unit of a mantissa is the scale of its interval over the denominator. -/
theorem scale_eq (e : ℤ) :
    ((1 <<< (e - 2).toNat : ℕ) : ℚ) = 2 ^ e / 4 * (1 <<< (2 - e).toNat : ℕ) := by
  rw [Nat.one_shiftLeft, Nat.one_shiftLeft]
  push_cast
  rw [← zpow_natCast, ← zpow_natCast, show (4 : ℚ) = 2 ^ (2 : ℤ) by norm_num,
    ← zpow_sub₀ two_ne_zero, ← zpow_add₀ two_ne_zero]
  congr 1
  omega

/-- The ends of the interval of a double. -/
theorem Interval.mem_ofDyadic {q : ℚ} :
    (Interval.ofDyadic m e).Mem q ↔
      (m - reach m e) * 2 ^ e ≤ q ∧ q ≤ (m + 1 / 2) * 2 ^ e ∧
        (m % 2 = 1 → (m - reach m e) * 2 ^ e < q ∧ q < (m + 1 / 2) * 2 ^ e) := by
  have hdenominator := one_shiftLeft_pos (2 - e).toNat
  have hbelow : ((if m = 1 <<< 52 ∧ leastExponent < e then 1 else 2 : ℕ) : ℚ) = 4 * reach m e := by
    unfold reach leastExponent
    rw [Nat.one_shiftLeft]
    split_ifs <;> norm_num
  unfold Mem ofDyadic
  dsimp only
  push_cast
  rw [scale_eq]
  push_cast at hbelow ⊢
  rw [hbelow]
  generalize ((1 <<< (2 - e).toNat : ℕ) : ℚ) = d at *
  -- both ends in quarters of a step, as the interval is built
  have hlow : 4 * m * (2 ^ e / 4 * d) - 4 * reach m e * (2 ^ e / 4 * d) =
      (m - reach m e) * 2 ^ e * d := by ring
  have hhigh : 4 * m * (2 ^ e / 4 * d) + 2 * (2 ^ e / 4 * d) = (m + 1 / 2) * 2 ^ e * d := by ring
  rw [← sub_le_iff_le_add, ← sub_lt_iff_lt_add, hlow, hhigh]
  simp only [mul_le_mul_iff_left₀ hdenominator, mul_lt_mul_iff_left₀ hdenominator, beq_iff_eq]
  rcases Nat.mod_two_eq_zero_or_one m with heven | hodd
  · simp [heven]
  · simp only [hodd, one_ne_zero, if_false, forall_true_left]
    exact ⟨fun h => ⟨h.1.le, h.2.le, h⟩, fun h => h.2.2⟩

theorem two_zpow_add (e : ℤ) (k : ℕ) : (2 : ℚ) ^ (e + k) = 2 ^ k * 2 ^ e := by
  rw [zpow_add₀ two_ne_zero, zpow_natCast, mul_comm]

/-- Below a power of two the grid is finer by one place. -/
theorem snapped_eq_pow {q : ℚ} (he : -1074 < e) (hlow : (2 ^ 52 - 1 / 4) * 2 ^ e ≤ q)
    (hhigh : q < 2 ^ 52 * 2 ^ e) : snapped q = 2 ^ 52 * 2 ^ e := by
  have hpos := two_zpow_pos (e - 1)
  have hfine : (2 : ℚ) ^ e = 2 * 2 ^ (e - 1) := by
    rw [zpow_sub_one₀ two_ne_zero]
    ring
  rw [hfine] at hlow hhigh ⊢
  have hq : 0 < q := lt_of_lt_of_le (by positivity) hlow
  -- just below a power of two the grid is twice as fine
  have hgrid : gridExponent q = e - 1 := by
    refine gridExponent_eq (by omega) hq ?_ (.inl ?_)
    · rw [show e - 1 + 53 = e - 1 + ((53 : ℕ) : ℤ) from rfl, two_zpow_add]
      linarith
    · rw [show e - 1 + 52 = e - 1 + ((52 : ℕ) : ℤ) from rfl, two_zpow_add]
      refine le_trans ?_ hlow
      rw [← mul_assoc]
      exact mul_le_mul_of_nonneg_right (by norm_num) hpos.le
  rw [snapped_eq_of_near (n := 2 ^ 53) hgrid]
  · push_cast
    ring
  · push_cast
    linarith
  · push_cast
    linarith
  · intro h
    norm_num at h

/-- What lies in the interval of a double is rounded to it. -/
theorem snapped_eq_of_mem {q : ℚ} (hpair : NormalPair m e) (hm : 0 < m)
    (h : (Interval.ofDyadic m e).Mem q) : snapped q = m * 2 ^ e := by
  rw [Interval.mem_ofDyadic] at h
  obtain ⟨hlow, hhigh, hodd⟩ := h
  have hpos := two_zpow_pos e
  have hm' : (1 : ℚ) ≤ m := by exact_mod_cast hm
  by_cases hpower : (m = 2 ^ 52 ∧ -1074 < e) ∧ q < m * 2 ^ e
  · obtain ⟨⟨rfl, he⟩, hbelow⟩ := hpower
    rw [reach, if_pos ⟨rfl, he⟩] at hlow
    push_cast at hlow hbelow ⊢
    exact snapped_eq_pow he hlow hbelow
  have hreach : (m - 1 / 2) * (2 : ℚ) ^ e ≤ (m - reach m e) * 2 ^ e := by
    refine mul_le_mul_of_nonneg_right ?_ hpos.le
    unfold reach
    split_ifs <;> linarith
  have hq : 0 < q := lt_of_lt_of_le (mul_pos (by linarith) hpos) (hreach.trans hlow)
  have hgrid : gridExponent q = e := by
    refine gridExponent_eq hpair.low hq ?_ ?_
    · rw [show e + 53 = e + ((53 : ℕ) : ℤ) from rfl, two_zpow_add]
      have : (m : ℚ) + 1 ≤ 2 ^ 53 := by exact_mod_cast hpair.lt
      exact hhigh.trans_lt (mul_lt_mul_of_pos_right (by linarith) hpos)
    · by_cases hleast : e = -1074
      · exact .inr hleast
      have hfull : 2 ^ 52 ≤ m := hpair.full.resolve_right hleast
      left
      rw [show e + 52 = e + ((52 : ℕ) : ℤ) from rfl, two_zpow_add]
      rcases hfull.lt_or_eq with hmore | rfl
      · have : (2 : ℚ) ^ 52 + 1 ≤ m := by exact_mod_cast hmore
        refine le_trans (mul_le_mul_of_nonneg_right ?_ hpos.le) (hreach.trans hlow)
        linarith
      · -- a power of two that is not above the number
        have hlow' := hpair.low
        exact_mod_cast not_lt.1 fun hbelow => hpower ⟨⟨rfl, by omega⟩, hbelow⟩
  exact snapped_eq_of_near hgrid (hreach.trans hlow) hhigh
    fun h => ⟨hreach.trans_lt (hodd h).1, (hodd h).2⟩

/-! ## Seventeen digits suffice -/

/-- The interval of a double is around the double. -/
theorem Interval.number_ofDyadic : (Interval.ofDyadic m e).number = m * 2 ^ e := by
  have hdenominator := one_shiftLeft_pos (2 - e).toNat
  unfold number ofDyadic
  dsimp only
  rw [Nat.cast_mul, scale_eq, div_eq_iff hdenominator.ne']
  push_cast
  ring

/-- The interval of a double reaches to both sides for at least the 54th binary digit of the
value. -/
theorem Interval.reach_inUnits (hpair : NormalPair m e) (k : ℤ) :
    ((Interval.ofDyadic m e).inUnits k).value ≤ 2 ^ 54 * ((Interval.ofDyadic m e).inUnits k).below ∧
      ((Interval.ofDyadic m e).inUnits k).value ≤
        2 ^ 54 * ((Interval.ofDyadic m e).inUnits k).above := by
  have hlt := hpair.lt
  unfold inUnits ofDyadic
  simp only [Nat.mul_assoc]
  generalize 1 <<< (e - 2).toNat * Nat.pow 10 (-k).toNat = unit
  rw [Nat.one_shiftLeft, ← Nat.mul_assoc, ← Nat.mul_assoc, ← Nat.mul_assoc]
  refine ⟨Nat.mul_le_mul_right _ ?_, Nat.mul_le_mul_right _ (by omega)⟩
  split_ifs <;> omega

/-- No interval around a double has an empty denominator, whatever it is counted in. -/
theorem Interval.denominator_inUnits_pos (k : ℤ) :
    0 < ((Interval.ofDyadic m e).inUnits k).denominator := by
  unfold inUnits ofDyadic
  dsimp only
  rw [Nat.one_shiftLeft]
  exact Nat.mul_pos (by positivity) (Nat.pow_pos (by norm_num))

/-- The value of the interval of a double, and the exponent of its leading digit. -/
theorem Interval.leadingExponent_ofDyadic (hm : 0 < m) :
    10 ^ (Interval.ofDyadic m e).leadingExponent ≤ (m : ℚ) * 2 ^ e ∧
      (m : ℚ) * 2 ^ e < 10 ^ ((Interval.ofDyadic m e).leadingExponent + 1) := by
  rw [← number_ofDyadic]
  refine leadingExponent_bounds ?_ ?_
  · unfold ofDyadic
    dsimp only
    rw [Nat.one_shiftLeft]
    positivity
  · unfold ofDyadic
    dsimp only
    rw [Nat.one_shiftLeft]
    positivity

/-- On the seventeenth grid from the leading digit on there is a whole number in the interval. -/
theorem Interval.isSome_finest (tie : Tie) (hpair : NormalPair m e) (hm : 0 < m) :
    (((Interval.ofDyadic m e).inUnits
      ((Interval.ofDyadic m e).leadingExponent - 16)).nearestInside? tie).isSome = true := by
  have hlow := (leadingExponent_ofDyadic (e := e) hm).1
  rw [← number_ofDyadic] at hlow
  generalize (Interval.ofDyadic m e).leadingExponent = leading at *
  have hnumber := number_inUnits (Interval.ofDyadic m e) (leading - 16)
  have hreach := reach_inUnits hpair (leading - 16)
  have hdenominator := denominator_inUnits_pos (m := m) (e := e) (leading - 16)
  generalize (Interval.ofDyadic m e).inUnits (leading - 16) = i at *
  -- the value is at least `10 ^ 16` units
  have hvalue : 10 ^ 16 * i.denominator ≤ i.value := by
    rw [← hnumber, show leading = 16 + (leading - 16) by ring, zpow_add₀ (by norm_num),
      add_sub_cancel_left] at hlow
    have := le_of_mul_le_mul_right hlow (zpow_pos (by norm_num) _)
    rw [number, le_div_iff₀ (by exact_mod_cast hdenominator)] at this
    exact_mod_cast this
  exact isSome_nearestInside? hdenominator (by omega) (by omega)

/-- The decimal that is found lies in the interval of the double, on one of the seventeen grids from
the leading digit on. -/
theorem shortest_spec (tie : Tie) (hpair : NormalPair m e) (hm : 0 < m) :
    (Interval.ofDyadic m e).Mem ((shortest tie m e).1 * 10 ^ (shortest tie m e).2) ∧
      (Interval.ofDyadic m e).leadingExponent - 16 ≤ (shortest tie m e).2 ∧
      (shortest tie m e).2 ≤ (Interval.ofDyadic m e).leadingExponent := by
  have hsome := Interval.isSome_finest tie hpair hm
  unfold shortest
  rw [if_neg hm.ne']
  dsimp only
  rw [show (mostZeros : ℤ) = 16 from rfl]
  generalize Interval.ofDyadic m e = i at *
  generalize hbounds : (i.inUnits (i.leadingExponent - 16)).bounds = bounds
  -- at most sixteen places are given up
  have hzeros := zerosBetween_le bounds.1 bounds.2 mostZeros
  unfold mostZeros at hzeros
  obtain ⟨hinside, hlow, hhigh⟩ :=
    Interval.firstInside_spec (zerosBetween bounds.1 bounds.2 mostZeros) hsome
  rw [Interval.contains_iff_mem, Interval.mem_inUnits] at hinside
  refine ⟨hinside, hlow, hhigh.trans ?_⟩
  unfold mostZeros
  omega

/-- The decimal that is found rounds to the double. -/
theorem snapped_shortest (tie : Tie) (hpair : NormalPair m e) (hm : 0 < m) :
    snapped ((shortest tie m e).1 * 10 ^ (shortest tie m e).2) = m * 2 ^ e :=
  snapped_eq_of_mem hpair hm (shortest_spec tie hpair hm).1

/-- The decimal that is found is not zero and has at most eighteen digits. -/
theorem shortest_bounds (tie : Tie) (hpair : NormalPair m e) (hm : 0 < m) :
    0 < (shortest tie m e).1 ∧ (shortest tie m e).1 < 10 ^ 18 := by
  obtain ⟨hinside, hlow, -⟩ := shortest_spec tie hpair hm
  have hsnapped := snapped_shortest tie hpair hm
  have hhigh := (Interval.leadingExponent_ofDyadic (e := e) hm).2
  rw [Interval.mem_ofDyadic] at hinside
  have hm' : (1 : ℚ) ≤ m := by exact_mod_cast hm
  have hpos := two_zpow_pos e
  generalize shortest tie m e = r at *
  generalize (Interval.ofDyadic m e).leadingExponent = leading at *
  obtain ⟨d, k⟩ := r
  dsimp only at *
  constructor
  · refine Nat.pos_of_ne_zero ?_
    rintro rfl
    rw [Nat.cast_zero, zero_mul, snapped_zero] at hsnapped
    exact absurd hsnapped.symm (mul_pos (by linarith) hpos).ne'
  · have hten : (0 : ℚ) < 10 ^ k := zpow_pos (by norm_num) k
    -- the decimal is below the upper end, and the last place is sixteen below the leading one
    have htop : (d : ℚ) * 10 ^ k < 10 ^ 18 * 10 ^ k := by
      calc (d : ℚ) * 10 ^ k ≤ (m + 1 / 2) * 2 ^ e := hinside.2.1
        _ ≤ 10 * (m * 2 ^ e) := by nlinarith
        _ < 10 * 10 ^ (leading + 1) := by linarith
        _ = 10 ^ (leading + 2) := by
            rw [show leading + 2 = 1 + (leading + 1) by ring, zpow_one_add₀ (by norm_num)]
        _ ≤ 10 ^ ((18 : ℕ) + k) := zpow_le_zpow_right₀ (by norm_num) (by push_cast; omega)
        _ = 10 ^ 18 * 10 ^ k := by rw [zpow_add₀ (by norm_num), zpow_natCast]
    exact_mod_cast lt_of_mul_lt_mul_right htop hten.le

/-- The unit of the decimal that is found is in the range of the doubles. -/
theorem shortest_unit_bounds (tie : Tie) (hpair : NormalPair m e) (hm : 0 < m) (he : e ≤ 971) :
    -400 ≤ (shortest tie m e).2 ∧ (shortest tie m e).2 ≤ 400 := by
  obtain ⟨-, hlow, hhigh⟩ := shortest_spec tie hpair hm
  obtain ⟨hfirst, hlast⟩ := Interval.leadingExponent_ofDyadic (e := e) hm
  generalize (Interval.ofDyadic m e).leadingExponent = leading at *
  -- doubles are below ten to the 320
  have htop : (10 : ℚ) ^ leading < 10 ^ (320 : ℤ) := by
    calc (10 : ℚ) ^ leading ≤ m * 2 ^ e := hfirst
      _ < 2 ^ 1024 := hpair.mul_pow_lt_of_le he
      _ = (2 ^ 64) ^ 16 := by rw [← pow_mul]
      _ ≤ (10 ^ 20) ^ 16 := pow_le_pow_left₀ (by norm_num) (by norm_num) 16
      _ = 10 ^ (320 : ℤ) := by rw [← pow_mul]; exact (zpow_natCast _ _).symm
  -- and those that are not zero are above ten to the -340
  have hbottom : (10 : ℚ) ^ (-340 : ℤ) < 10 ^ (leading + 1) := by
    calc (10 : ℚ) ^ (-340 : ℤ) = ((10 ^ 20) ^ 17)⁻¹ := by
          rw [← pow_mul, zpow_neg]
          exact congrArg _ (zpow_natCast _ _)
      _ ≤ ((2 ^ 64) ^ 17)⁻¹ :=
          inv_anti₀ (by positivity) (pow_le_pow_left₀ (by norm_num) (by norm_num) 17)
      _ = 2 ^ (-1088 : ℤ) := by
          rw [← pow_mul, zpow_neg]
          exact congrArg _ (zpow_natCast _ _).symm
      _ ≤ 2 ^ e := zpow_le_zpow_right₀ one_le_two (by have := hpair.low; omega)
      _ ≤ m * 2 ^ e := le_mul_of_one_le_left (two_zpow_pos e).le (by exact_mod_cast hm)
      _ < 10 ^ (leading + 1) := hlast
  rw [zpow_lt_zpow_iff_right₀ (by norm_num)] at htop hbottom
  omega

end Rounds

end SpeechTranscript.Decimal
