import SpeechTranscript.Json.Writer
import SpeechTranscript.Proofs.Decimal.Shortest
import SpeechTranscript.Proofs.Json.Numeral

/-!
# Numbers read back

A finite double is written as its shortest decimal, in place or with an exponent, and is read back
from it; so is an integer of 64 bits from its digits. The sign is written before the number and read
before it.

* `denotes_magnitude`: the text of a double stands for its shortest decimal.
* `reads_magnitude`, `reads_toDigits`: reading back a double and an integer.
-/

namespace SpeechTranscript.Json

open Decimal Double

/-! ## Written doubles -/

section Written

variable {ds : List Char} {exponent : ℤ}

theorem isDigits_toDigits (n : ℕ) : IsDigits (Nat.toDigits 10 n) :=
  ⟨Nat.toDigits_ne_nil, fun _ hd => Nat.isDigit_of_mem_toDigits (by norm_num) le_rfl hd⟩

@[simp] theorem digitsNumber_toDigits (n : ℕ) : digitsNumber (Nat.toDigits 10 n) = n :=
  Nat.ofDigitChars_ten_toDigits

/-- A number other than zero is written without a zero in front. -/
theorem head?_toDigits {n : ℕ} (hn : 0 < n) : (Nat.toDigits 10 n).head? ≠ some '0' := by
  induction n using Nat.strong_induction_on with
  | _ n ih =>
    rcases Nat.lt_or_ge n 10 with hshort | hlong
    · rw [Nat.toDigits_of_lt_base hshort, List.head?_cons, Ne, Option.some.injEq,
        Nat.digitChar_eq_zero]
      exact hn.ne'
    · rw [Nat.toDigits_of_base_le (by norm_num) hlong,
        List.head?_append_of_ne_nil _ Nat.toDigits_ne_nil]
      exact ih (n / 10) (by omega) (by omega)

/-- A text that is a number with a point or an exponent, short enough to be read whole. -/
def Denotes (cs : List Char) (q : ℚ) : Prop :=
  ∃ n : Numeral, n.Valid ∧ n.text = cs ∧ (n.fraction ≠ [] ∨ n.exponent ≠ none) ∧
    (n.whole ++ n.fraction).length ≤ digitsLookedAt ∧ n.number = q

/-- Zeros may follow digits. -/
theorem isDigits_append_replicate (hds : IsDigits ds) (n : ℕ) :
    IsDigits (ds ++ List.replicate n '0') := by
  refine ⟨List.append_ne_nil_of_left_ne_nil hds.1 _, fun d hd => ?_⟩
  rcases List.mem_append.1 hd with h | h
  · exact hds.2 d h
  · rw [List.eq_of_mem_replicate h]
    rfl

/-- Digits before a point and behind it. -/
theorem denotes_pointed (whole fraction : List Char) (hwhole : IsDigits whole)
    (hfront : NoZeroInFront whole) (hfraction : IsDigits fraction)
    (hlength : (whole ++ fraction).length ≤ digitsLookedAt) :
    Denotes (whole ++ '.' :: fraction)
      (digitsNumber (whole ++ fraction) * 10 ^ (-(fraction.length : ℤ))) := by
  refine ⟨⟨whole, fraction, none⟩, ⟨hwhole, hfront, hfraction.2, nofun⟩, ?_, .inl hfraction.1,
    hlength, ?_⟩
  · obtain ⟨d, ds, rfl⟩ := List.exists_cons_of_ne_nil hfraction.1
    simp [Numeral.text, Numeral.fractionText, Numeral.exponentText]
  · rw [Numeral.number, Numeral.power, zero_sub]

/-- A whole number in place, with a zero behind the point. -/
theorem denotes_inPlace_of_nonneg (hds : IsDigits ds)
    (hfront : NoZeroInFront (ds ++ List.replicate exponent.toNat '0'))
    (hexponent : 0 ≤ exponent) (hlength : ds.length + exponent < 768) :
    Denotes (floatStyle.inPlace ds exponent) (digitsNumber ds * 10 ^ exponent) := by
  have hshort : (ds ++ List.replicate exponent.toNat '0' ++ ['0']).length ≤ digitsLookedAt := by
    rw [List.length_append, List.length_append, List.length_replicate, List.length_singleton,
      digitsLookedAt]
    omega
  have hpointed := denotes_pointed _ ['0'] (isDigits_append_replicate hds _) hfront
    (isDigits_toDigits 0) hshort
  -- the zero behind the point takes back the power of ten that it costs
  have hnumber : (digitsNumber (ds ++ List.replicate exponent.toNat '0' ++ ['0']) : ℚ) *
      10 ^ (-((['0'].length : ℕ) : ℤ)) = digitsNumber ds * 10 ^ exponent := by
    rw [digitsNumber_append, digitsNumber_append, digitsNumber_replicate_zero,
      List.length_replicate, show digitsNumber ['0'] = 0 from digitsNumber_toDigits 0, zpow_neg,
      zpow_natCast]
    push_cast
    rw [add_zero, add_zero, mul_assoc, mul_assoc, mul_inv_cancel₀ (by positivity), mul_one,
      ← zpow_natCast, Int.toNat_of_nonneg hexponent]
  rw [hnumber] at hpointed
  rw [Style.inPlace, if_pos hexponent]
  exact hpointed

/-- A number in place with digits behind the point. -/
theorem denotes_inPlace_of_neg (hds : IsDigits ds) (hfront : ds.head? ≠ some '0')
    (hexponent : exponent < 0) (hlength : ds.length < 384) (hlow : -384 < exponent) :
    Denotes (floatStyle.inPlace ds exponent) (digitsNumber ds * 10 ^ exponent) := by
  rw [Style.inPlace, if_neg hexponent.not_ge]
  dsimp only
  have hplaces : (exponent : ℤ) = -((-exponent).toNat : ℤ) := by omega
  generalize hp : (-exponent).toNat = places at *
  generalize hall : List.replicate (places + 1 - ds.length) '0' ++ ds = all
  have hlength_all : all.length = max (places + 1) ds.length := by
    rw [← hall, List.length_append, List.length_replicate]
    omega
  have hdigits : ∀ d ∈ all, d.isDigit = true := by
    rw [← hall]
    intro d hd
    rcases List.mem_append.1 hd with h | h
    · rw [List.eq_of_mem_replicate h]
      rfl
    · exact hds.2 d h
  have hwhole : (all.take (all.length - places)).length = all.length - places := by
    rw [List.length_take]
    omega
  have hfraction : (all.drop (all.length - places)).length = places := by
    rw [List.length_drop]
    omega
  have hnumber : digitsNumber all = digitsNumber ds := by
    rw [← hall, digitsNumber_append, digitsNumber_replicate_zero, Nat.zero_mul, Nat.zero_add]
  have hfront' : NoZeroInFront (all.take (all.length - places)) := by
    intro hzero
    -- a zero in front stands where the digits are too few
    by_contra hmore
    have hnone : places + 1 - ds.length = 0 := by omega
    rw [List.head?_take, if_neg (by omega), ← hall, hnone] at hzero
    exact hfront hzero
  have hpointed := denotes_pointed (all.take (all.length - places)) (all.drop (all.length - places))
    ⟨List.ne_nil_of_length_pos (by omega), fun d hd => hdigits d (List.mem_of_mem_take hd)⟩ hfront'
    ⟨List.ne_nil_of_length_pos (by omega), fun d hd => hdigits d (List.mem_of_mem_drop hd)⟩
    (by rw [List.take_append_drop, hlength_all, digitsLookedAt]; omega)
  rw [List.take_append_drop, hfraction, hnumber, ← hplaces] at hpointed
  exact hpointed

/-- A number with an exponent. -/
theorem denotes_scientific (hds : IsDigits ds) (hlength : ds.length ≤ digitsLookedAt)
    (hleading : (exponent + ds.length - 1).natAbs ≤ largestExponent) :
    Denotes (Style.scientific ds exponent) (digitsNumber ds * 10 ^ exponent) := by
  obtain ⟨d, more, rfl⟩ := List.exists_cons_of_ne_nil hds.1
  generalize hl : exponent + (d :: more).length - 1 = leading at *
  refine ⟨⟨[d], more, some (decide (leading < 0), Nat.toDigits 10 leading.natAbs)⟩,
    ⟨⟨List.cons_ne_nil _ _, ?_⟩, fun _ => rfl, ?_, ?_⟩, ?_, .inr ?_, hlength, ?_⟩
  · intro c hc
    exact hds.2 c (List.mem_cons.2 (.inl (List.mem_singleton.1 hc)))
  · exact fun c hc => hds.2 c (List.mem_cons_of_mem d hc)
  · intro below ds heq
    cases heq
    refine ⟨isDigits_toDigits _, ?_⟩
    rwa [digitsNumber_toDigits]
  · unfold Style.scientific
    dsimp only
    rw [hl]
    cases more <;> simp [Numeral.text, Numeral.fractionText, Numeral.exponentText]
  · exact Option.some_ne_none _
  · -- the sign and the digits of the exponent denote it again
    have hpower : (if decide (leading < 0) = true then -(leading.natAbs : ℤ) else leading.natAbs) =
        leading := by
      by_cases hbelow : leading < 0
      · rw [if_pos (decide_eq_true hbelow)]
        omega
      · rw [if_neg (by rwa [decide_eq_true_iff])]
        omega
    unfold Numeral.number Numeral.power
    dsimp only
    rw [digitsNumber_toDigits, hpower, ← hl, List.length_cons]
    congr 2
    push_cast
    ring

/-- The digits of a number without the zeros at its end. -/
theorem kept_toDigits {d : ℕ} (hd : 0 < d) :
    ∃ kept zeros, (Nat.toDigits 10 d).take ((Nat.toDigits 10 d).length -
        ((Nat.toDigits 10 d).reverse.takeWhile (· == '0')).length) = kept ∧
      ((Nat.toDigits 10 d).reverse.takeWhile (· == '0')).length = zeros ∧
      kept ++ List.replicate zeros '0' = Nat.toDigits 10 d ∧
      IsDigits kept ∧ kept.head? ≠ some '0' := by
  have hparts := dropWhile_append_replicate (Nat.toDigits 10 d)
  have hdigits := isDigits_toDigits d
  have hfront := head?_toDigits hd
  generalize Nat.toDigits 10 d = ds at *
  generalize (ds.reverse.takeWhile (· == '0')).length = zeros at *
  generalize (ds.reverse.dropWhile (· == '0')).reverse = kept at *
  subst hparts
  -- a positive number has a digit other than zero in front
  have hsome : kept ≠ [] := by
    rintro rfl
    rw [List.nil_append] at hfront hdigits
    cases zeros with
    | zero => exact hdigits.1 rfl
    | succ n => exact hfront rfl
  refine ⟨kept, zeros, ?_, rfl, rfl, ⟨hsome, fun c hc => ?_⟩, ?_⟩
  · rw [List.length_append, List.length_replicate, Nat.add_sub_cancel, List.take_left]
  · exact hdigits.2 c (List.mem_append_left _ hc)
  · rwa [List.head?_append_of_ne_nil _ hsome] at hfront

theorem denotes_magnitude_zero (e : ℤ) : Denotes (floatStyle.magnitude 0 e) 0 := by
  have hdenotes : Denotes (floatStyle.inPlace ['0'] 0) (digitsNumber ['0'] * 10 ^ (0 : ℤ)) :=
    denotes_inPlace_of_nonneg (isDigits_toDigits 0) (fun _ => rfl) le_rfl (by norm_num)
  rw [show digitsNumber ['0'] = 0 from digitsNumber_toDigits 0, Nat.cast_zero, zero_mul] at hdenotes
  exact hdenotes

/-- The text of a double that is not zero stands for its shortest decimal. -/
theorem denotes_magnitude {m : ℕ} {e : ℤ} (hpair : NormalPair m e) (hm : 0 < m) (he : e ≤ 971) :
    Denotes (floatStyle.magnitude m e)
      ((shortest .toEven m e).1 * 10 ^ (shortest .toEven m e).2) := by
  obtain ⟨hd, htop⟩ := shortest_bounds .toEven hpair hm
  obtain ⟨hlow, hhigh⟩ := shortest_unit_bounds .toEven hpair hm he
  unfold Style.magnitude
  rw [show floatStyle.tie = .toEven from rfl]
  generalize shortest .toEven m e = r at *
  obtain ⟨d, k⟩ := r
  dsimp only at *
  rw [if_neg hd.ne']
  obtain ⟨kept, zeros, hkept, hzeros, hparts, hdigits, hfront⟩ := kept_toDigits hd
  rw [hkept, hzeros]
  -- eighteen digits at most, zeros at the end included
  have hlength : kept.length + zeros ≤ 18 := by
    have hcount : (Nat.toDigits 10 d).length ≤ 18 :=
      (Nat.length_toDigits_le_iff (by decide) (by decide)).2 htop
    rwa [← hparts, List.length_append, List.length_replicate] at hcount
  have hpositive : 0 < kept.length := List.length_pos_iff.2 hdigits.1
  have hnumber : (d : ℚ) * 10 ^ k = digitsNumber kept * 10 ^ (k + zeros) := by
    have : d = digitsNumber kept * 10 ^ zeros := by
      rw [← digitsNumber_toDigits d, ← hparts, digitsNumber_append, digitsNumber_replicate_zero,
        List.length_replicate, Nat.add_zero]
    rw [this, zpow_add₀ (by norm_num), zpow_natCast]
    push_cast
    ring
  rw [hnumber]
  -- the style writes the number in place or with an exponent
  by_cases hinPlace : floatStyle.positional (k + zeros + kept.length - 1) = true
  · rw [if_pos (.inr hinPlace)]
    simp only [floatStyle, Bool.and_eq_true, decide_eq_true_eq] at hinPlace
    rcases le_or_gt 0 (k + zeros) with hwhole | hbelow
    · refine denotes_inPlace_of_nonneg hdigits (fun h => ?_) hwhole (by omega)
      rw [List.head?_append_of_ne_nil _ hdigits.1] at h
      exact absurd h hfront
    · exact denotes_inPlace_of_neg hdigits hfront hbelow (by omega) (by omega)
  · rw [if_neg (by rintro (h | h); exacts [hd.ne' h, hinPlace h])]
    refine denotes_scientific hdigits ?_ ?_
    · rw [digitsLookedAt]
      omega
    · rw [largestExponent]
      omega

/-- The text of the magnitude of a double stands for a number that rounds to it. -/
theorem exists_denotes_magnitude {x : Float} {negative : Bool} {m : ℕ} {e : ℤ}
    (hx : Exact.ofFloat x = .finite negative m e) :
    ∃ q, Denotes (floatStyle.magnitude m e) q ∧ snapped q = m * 2 ^ e ∧ (m = 0 → q = 0) := by
  rcases Nat.eq_zero_or_pos m with rfl | hm
  · refine ⟨0, denotes_magnitude_zero e, ?_, fun _ => rfl⟩
    rw [snapped_zero, Nat.cast_zero, zero_mul]
  · obtain ⟨hpair, he⟩ := normalPair_of_exact negative hx hm
    exact ⟨_, denotes_magnitude hpair hm he, snapped_shortest .toEven hpair hm,
      fun h => absurd h hm.ne'⟩

/-- The text of the magnitude of a double is read back as the double, its sign supplied. -/
theorem reads_magnitude {x : Float} {negative : Bool} {m : ℕ} {e : ℤ} {rest : List Char}
    (hx : Exact.ofFloat x = .finite negative m e) (hrest : EndsNumber rest) :
    Reads (readNumber negative (floatStyle.magnitude m e ++ rest)) (.float x) rest := by
  obtain ⟨q, ⟨n, hvalid, htext, hdecimal, hlength, rfl⟩, hsnapped, hzero⟩ :=
    exists_denotes_magnitude hx
  rw [← htext]
  exact hvalid.reads_float hrest hx hdecimal hlength hsnapped hzero

/-- A number starts with a digit. -/
theorem Denotes.starts {cs : List Char} {q : ℚ} (h : Denotes cs q) :
    ∃ d more, cs = d :: more ∧ d.isDigit = true := by
  obtain ⟨n, hvalid, rfl, -⟩ := h
  obtain ⟨d, more, hwhole⟩ := List.exists_cons_of_ne_nil hvalid.whole.1
  refine ⟨d, more ++ (Numeral.fractionText n.fraction ++ Numeral.exponentText n.exponent), ?_, ?_⟩
  · rw [Numeral.text, hwhole, List.append_assoc]
    rfl
  · exact hvalid.whole.2 d (hwhole ▸ List.mem_cons_self)

/-! ## Written integers -/

/-- The digits of a natural number are a numeral without fraction and exponent. -/
theorem valid_toDigits (n : ℕ) : Numeral.Valid ⟨Nat.toDigits 10 n, [], none⟩ where
  whole := isDigits_toDigits n
  front h := by
    rcases Nat.eq_zero_or_pos n with rfl | hn
    · rfl
    · exact absurd h (head?_toDigits hn)
  fraction := nofun
  exponent := nofun

/-- The digits of an integer of 64 bits are read back as the integer, its sign supplied. -/
theorem reads_toDigits (negative : Bool) (n : ℕ) {rest : List Char} (hrest : EndsNumber rest)
    (hroom : if negative then 0 < n ∧ n ≤ UInt64.size / 2 else n < UInt64.size) :
    Reads (readNumber negative (Nat.toDigits 10 n ++ rest))
      (.integer (if negative then -n else n)) rest := by
  have hvalue : wholeNumber negative (digitsValue (Nat.toDigits 10 n)) rest =
      .ok (.integer (if negative then -n else n)) := by
    rw [digitsValue_eq, digitsNumber_toDigits]
    cases negative with
    | true =>
      rw [if_pos rfl] at hroom
      rw [wholeNumber, if_pos rfl, if_pos hroom]
      rfl
    | false =>
      rw [if_neg Bool.false_ne_true] at hroom
      rw [wholeNumber, if_neg Bool.false_ne_true, if_pos hroom]
      rfl
  have htext : Numeral.text ⟨Nat.toDigits 10 n, [], none⟩ = Nat.toDigits 10 n := by
    simp [Numeral.text, Numeral.fractionText, Numeral.exponentText]
  rw [← htext]
  exact (valid_toDigits n).reads negative hrest hvalue

end Written

end SpeechTranscript.Json
