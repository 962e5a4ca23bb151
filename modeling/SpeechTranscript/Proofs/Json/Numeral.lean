import SpeechTranscript.Json.Reader
import SpeechTranscript.Proofs.Double.Exact

/-!
# Numerals

An unsigned number in a text has digits before a point, digits behind it and an exponent, of which
the last two may be missing. The reader of numbers takes it to its end and makes of it the double
nearest to the number that it stands for.

* `Reads`, `Takes`: what a reader gives, and what it leaves.
* `Numeral.Valid.reads`: a numeral is read as what its parts make.
* `Numeral.Valid.reads_float`: a numeral that rounds to a double is read as that double.
-/

namespace SpeechTranscript.Json

open Decimal Double

/-! ## What a reader gives -/

/-- A reader gives a value and leaves a rest. -/
def Reads {α : Type} {cs : List Char} (result : Except Fault (Parsed α cs)) (value : α)
    (rest : List Char) : Prop :=
  ∃ shorter, result = .ok ⟨value, rest, shorter⟩

/-- A reader of something that may be missing gives a value and leaves a rest. -/
def Takes {α : Type} {cs : List Char} (result : Except Fault (Taken α cs)) (value : α)
    (rest : List Char) : Prop :=
  ∃ le, result = .ok ⟨value, rest, le⟩

theorem ok_bind {α β : Type} (a : α) (f : α → Except Fault β) : (Except.ok a >>= f) = f a := rfl

/-- A text does not go on with a digit. -/
def EndsDigits (rest : List Char) : Prop := ∀ c ∈ rest.head?, c.isDigit = false

/-- A text does not go on with anything that could belong to a number before it. -/
def EndsNumber (rest : List Char) : Prop :=
  ∀ c ∈ rest.head?, c.isDigit = false ∧ c ≠ '.' ∧ c ≠ 'e' ∧ c ≠ 'E'

theorem EndsNumber.endsDigits {rest : List Char} (h : EndsNumber rest) : EndsDigits rest :=
  fun c hc => (h c hc).1

/-! ## Runs of digits -/

/-- At least one digit and nothing else. -/
def IsDigits (ds : List Char) : Prop := ds ≠ [] ∧ ∀ d ∈ ds, d.isDigit = true

section Digits

variable {ds rest : List Char}

/-- A run of digits is taken up to what ends it. -/
theorem takeWhile_digits (hds : ∀ d ∈ ds, d.isDigit = true) (hrest : EndsDigits rest) :
    (ds ++ rest).takeWhile Char.isDigit = ds := by
  rw [List.takeWhile_append_of_pos hds]
  cases rest with
  | nil => simp
  | cons c cs => simp [hrest c rfl]

/-- What ends a run of digits is left. -/
theorem dropWhile_digits (hds : ∀ d ∈ ds, d.isDigit = true) (hrest : EndsDigits rest) :
    (ds ++ rest).dropWhile Char.isDigit = rest := by
  rw [List.dropWhile_append_of_pos hds]
  cases rest with
  | nil => rfl
  | cons c cs => simp [hrest c rfl]

/-- Digits are read up to what ends them. -/
theorem reads_digits (hds : IsDigits ds) (hrest : EndsDigits rest) :
    Reads (readDigits (ds ++ rest)) ds rest := by
  have hhere := takeWhile_digits hds.2 hrest
  have hthere := dropWhile_digits hds.2 hrest
  unfold readDigits
  split
  · -- there are digits to take
    rename_i hnone
    exact absurd (hhere.symm.trans hnone) hds.1
  · rename_i d ds' hsome
    obtain rfl : ds = d :: ds' := hhere.symm.trans hsome
    simp only [hthere]
    exact ⟨_, rfl⟩

/-- Digits without a zero in front, except for zero itself. -/
def NoZeroInFront (ds : List Char) : Prop := ds.head? = some '0' → ds.length = 1

/-- The digits before the point are read. A zero in front of more of them would be a fault. -/
theorem reads_whole (hds : IsDigits ds) (hfront : NoZeroInFront ds) (hrest : EndsDigits rest) :
    Reads (readWhole (ds ++ rest)) ds rest := by
  obtain ⟨shorter, hdigits⟩ := reads_digits hds hrest
  rw [readWhole, hdigits, ok_bind]
  refine ⟨shorter, ?_⟩
  split
  · rename_i second more heq
    obtain ⟨d, ds', rfl⟩ := List.exists_cons_of_ne_nil hds.1
    obtain ⟨rfl, htail⟩ := List.cons.inj heq
    -- after a zero that stands alone comes what ends the digits
    obtain rfl : ds' = [] := List.length_eq_zero_iff.1 (Nat.succ.inj (hfront rfl))
    obtain rfl : rest = second :: more := htail
    rw [if_neg (by rw [hrest second rfl]; exact Bool.false_ne_true)]
    rfl
  · rfl

theorem takes_fraction (hds : IsDigits ds) (hrest : EndsDigits rest) :
    Takes (readFraction ('.' :: (ds ++ rest))) ds rest := by
  obtain ⟨shorter, hdigits⟩ := reads_digits hds hrest
  rw [readFraction, hdigits, ok_bind]
  exact ⟨_, rfl⟩

/-- Without a point nothing is taken. -/
theorem takes_no_fraction (hrest : ∀ c ∈ rest.head?, c ≠ '.') :
    Takes (readFraction rest) [] rest := by
  unfold readFraction
  split
  · exact absurd rfl (hrest '.' rfl)
  · exact ⟨le_rfl, rfl⟩

/-- The mark of an exponent is taken with its sign and its digits. -/
theorem takes_exponent (below : Bool) (hds : IsDigits ds) (hrest : EndsDigits rest) :
    Takes (readExponent ('e' :: (if below then '-' else '+') :: (ds ++ rest)))
      (some (below, ds)) rest := by
  obtain ⟨shorter, hdigits⟩ := reads_digits hds hrest
  cases below with
  | true =>
    show Takes (readDigits (ds ++ rest) >>= fun p => .ok ⟨some (true, p.value), p.rest, _⟩) _ _
    rw [hdigits, ok_bind]
    exact ⟨_, rfl⟩
  | false =>
    show Takes (readDigits (ds ++ rest) >>= fun p => .ok ⟨some (false, p.value), p.rest, _⟩) _ _
    rw [hdigits, ok_bind]
    exact ⟨_, rfl⟩

/-- Without the mark nothing is taken. -/
theorem takes_no_exponent (hrest : ∀ c ∈ rest.head?, c ≠ 'e' ∧ c ≠ 'E') :
    Takes (readExponent rest) none rest := by
  cases rest with
  | nil => exact ⟨le_rfl, rfl⟩
  | cons c cs =>
    obtain ⟨he, hE⟩ := hrest c rfl
    -- neither of the two marks
    rw [readExponent, if_neg (by simp [he, hE])]
    exact ⟨le_rfl, rfl⟩

/-- The value of a run of digits. -/
abbrev digitsNumber (ds : List Char) : ℕ := Nat.ofDigitChars 10 ds 0

/-- The value that the reader computes digit by digit is that of the digits. -/
theorem digitsValue_eq (ds : List Char) : digitsValue ds = digitsNumber ds :=
  digitsValue_eq_foldl ds

/-- More digits make no smaller number. -/
theorem le_ofDigitChars (n : ℕ) (ds : List Char) : n ≤ Nat.ofDigitChars 10 ds n := by
  rw [Nat.ofDigitChars_eq_ofDigitChars_zero]
  exact Nat.le_add_right_of_le (Nat.le_mul_of_pos_left n (by positivity))

/-- An exponent within the range does not overflow on the way. -/
theorem digitsToOverflow_eq_none {read n : ℕ} (h : Nat.ofDigitChars 10 ds n ≤ largestExponent) :
    digitsToOverflow read n ds = none := by
  induction ds generalizing read n with
  | nil => rfl
  | cons d ds ih =>
    rw [Nat.ofDigitChars_cons] at h
    -- the digits read so far make no larger number than all of them
    have hle : pushDigit n d ≤ largestExponent := (le_ofDigitChars _ _).trans h
    rw [digitsToOverflow, if_neg (not_lt.2 hle)]
    exact ih h

end Digits

/-! ## Numerals -/

/-- The parts of an unsigned number in a text. -/
structure Numeral where
  whole : List Char
  /-- No digits stand for no point. -/
  fraction : List Char
  /-- Whether an exponent is below zero, and its digits. -/
  exponent : Option (Bool × List Char)

namespace Numeral

variable {n : Numeral} {rest : List Char}

def fractionText : List Char → List Char
  | [] => []
  | ds => '.' :: ds

def exponentText : Option (Bool × List Char) → List Char
  | none => []
  | some (below, ds) => 'e' :: (if below then '-' else '+') :: ds

def text (n : Numeral) : List Char := n.whole ++ fractionText n.fraction ++ exponentText n.exponent

/-- The power of ten that the exponent stands for. -/
def power (n : Numeral) : ℤ :=
  match n.exponent with
  | none => 0
  | some (below, ds) => if below then -(digitsNumber ds : ℤ) else digitsNumber ds

/-- The number that a numeral stands for. -/
def number (n : Numeral) : ℚ :=
  digitsNumber (n.whole ++ n.fraction) * 10 ^ (n.power - n.fraction.length)

/-- A numeral in the form that texts may have. -/
structure Valid (n : Numeral) : Prop where
  whole : IsDigits n.whole
  front : NoZeroInFront n.whole
  fraction : ∀ d ∈ n.fraction, d.isDigit = true
  exponent : ∀ below ds, n.exponent = some (below, ds) →
    IsDigits ds ∧ digitsNumber ds ≤ largestExponent

/-- Digits end where an exponent starts, or at what ends the number. -/
theorem endsDigits_exponentText (hrest : EndsNumber rest) :
    EndsDigits (exponentText n.exponent ++ rest) := by
  cases n.exponent with
  | none => exact hrest.endsDigits
  | some e => intro c hc; cases hc; rfl

theorem endsDigits_fractionText (hrest : EndsNumber rest) :
    EndsDigits (fractionText n.fraction ++ (exponentText n.exponent ++ rest)) := by
  cases n.fraction with
  | nil => exact endsDigits_exponentText hrest
  | cons d ds => intro c hc; cases hc; rfl

/-- The fraction of a numeral is taken, whether there is one or not. -/
theorem Valid.takes_fraction (h : n.Valid) (hrest : EndsNumber rest) :
    Takes (readFraction (fractionText n.fraction ++ (exponentText n.exponent ++ rest))) n.fraction
      (exponentText n.exponent ++ rest) := by
  have hends := endsDigits_exponentText (n := n) hrest
  cases hfraction : n.fraction with
  | nil =>
    refine takes_no_fraction ?_
    cases n.exponent with
    | none => exact fun c hc => (hrest c hc).2.1
    | some e => intro c hc; cases hc; decide
  | cons d ds =>
    refine Json.takes_fraction ⟨List.cons_ne_nil d ds, ?_⟩ hends
    exact hfraction ▸ h.fraction

/-- The exponent of a numeral is taken, whether there is one or not. -/
theorem Valid.takes_exponent (h : n.Valid) (hrest : EndsNumber rest) :
    Takes (readExponent (exponentText n.exponent ++ rest)) n.exponent rest := by
  cases hexponent : n.exponent with
  | none => exact takes_no_exponent fun c hc => (hrest c hc).2.2
  | some e =>
    obtain ⟨below, ds⟩ := e
    exact Json.takes_exponent below (h.exponent below ds hexponent).1 hrest.endsDigits

/-- A numeral is read as what its parts make. -/
theorem Valid.reads (h : n.Valid) (negative : Bool) {value : Json} (hrest : EndsNumber rest)
    (hvalue : (if n.fraction.isEmpty && n.exponent.isNone then
        wholeNumber negative (digitsValue n.whole) rest
      else decimalNumber negative n.whole n.fraction n.exponent rest) = .ok value) :
    Reads (readNumber negative (n.text ++ rest)) value rest := by
  have hwhole := reads_whole h.whole h.front (endsDigits_fractionText (n := n) hrest)
  obtain ⟨hshorter, hwhole⟩ := hwhole
  obtain ⟨hle, hfraction⟩ := h.takes_fraction hrest
  obtain ⟨hle', hexponent⟩ := h.takes_exponent hrest
  rw [text, List.append_assoc, List.append_assoc, readNumber, hwhole, ok_bind]
  dsimp only
  rw [hfraction, ok_bind]
  dsimp only
  rw [hexponent, ok_bind]
  dsimp only
  -- a whole number, or one with a fraction or an exponent
  split at hvalue
  · rename_i hplain
    rw [if_pos hplain, hvalue, ok_bind]
    exact ⟨_, rfl⟩
  · rename_i hdecimal
    rw [if_neg hdecimal, hvalue, ok_bind]
    exact ⟨_, rfl⟩

end Numeral

/-! ## The nearest double -/

theorem digitsNumber_append (front back : List Char) :
    digitsNumber (front ++ back) = digitsNumber front * 10 ^ back.length + digitsNumber back := by
  unfold digitsNumber
  rw [Nat.ofDigitChars_append, Nat.ofDigitChars_eq_ofDigitChars_zero, Nat.mul_comm]

@[simp] theorem digitsNumber_replicate_zero (n : ℕ) :
    digitsNumber (List.replicate n '0') = 0 := by
  rw [digitsNumber, Nat.ofDigitChars_replicate_zero, Nat.mul_zero]

/-- The zeros in front of a list, and what comes after them. -/
theorem replicate_append_dropWhile (ds : List Char) :
    List.replicate (ds.takeWhile (· == '0')).length '0' ++ ds.dropWhile (· == '0') = ds := by
  have hzeros : ds.takeWhile (· == '0') = List.replicate (ds.takeWhile (· == '0')).length '0' :=
    List.eq_replicate_iff.2 ⟨rfl, fun c hc => by simpa using List.mem_takeWhile_imp hc⟩
  rw [← hzeros, List.takeWhile_append_dropWhile]

/-- The zeros at the end of a list, and what comes before them. -/
theorem dropWhile_append_replicate (ds : List Char) :
    (ds.reverse.dropWhile (· == '0')).reverse ++
      List.replicate (ds.reverse.takeWhile (· == '0')).length '0' = ds := by
  rw [← List.reverse_replicate, ← List.reverse_append, replicate_append_dropWhile,
    List.reverse_reverse]

theorem digitsNumber_dropWhile_zero (ds : List Char) :
    digitsNumber (ds.dropWhile (· == '0')) = digitsNumber ds := by
  conv_rhs => rw [← replicate_append_dropWhile ds, digitsNumber_append,
    digitsNumber_replicate_zero, Nat.zero_mul, Nat.zero_add]

section Float

variable {x : Float} {negative : Bool} {m : ℕ} {e : ℤ} {whole fraction : List Char} {power : ℤ}

/-- The double that digits are read as, if all of them are looked at. -/
theorem nearestFloat_eq (hx : Exact.ofFloat x = .finite negative m e)
    (hlength : (whole ++ fraction).length ≤ digitsLookedAt)
    (h : snapped (digitsNumber (whole ++ fraction) * 10 ^ (power - fraction.length)) = m * 2 ^ e)
    (hzero : m = 0 → digitsNumber (whole ++ fraction) = 0) :
    nearestFloat negative whole fraction power = x := by
  have hfraction := (dropWhile_append_replicate fraction).symm
  unfold nearestFloat
  dsimp only
  generalize (fraction.reverse.dropWhile (· == '0')).reverse = kept at *
  generalize (fraction.reverse.takeWhile (· == '0')).length = zeros at *
  subst hfraction
  -- zeros at the end change the digits and the power of ten
  have hkept : digitsNumber (whole ++ (kept ++ List.replicate zeros '0')) =
      digitsNumber (whole ++ kept) * 10 ^ zeros := by
    rw [← List.append_assoc, digitsNumber_append, digitsNumber_replicate_zero,
      List.length_replicate, Nat.add_zero]
  -- no digit is cut off, as there are not more than are looked at
  have hshort : ((whole ++ kept).dropWhile (· == '0')).length ≤ digitsLookedAt := by
    refine (List.dropWhile_sublist _).length_le.trans (le_trans ?_ hlength)
    simp only [List.length_append]
    omega
  rw [if_pos (Nat.sub_eq_zero_of_le hshort), digitsValue_eq, digitsNumber_dropWhile_zero]
  refine ofDecimal_eq negative hx ?_ fun hm => ?_
  · rw [← h, hkept, List.length_append, List.length_replicate]
    congr 1
    push_cast
    -- as many places as there are zeros, to the exponent
    rw [show power - kept.length = zeros + (power - (kept.length + zeros)) by ring,
      zpow_add₀ (by norm_num), zpow_natCast, mul_assoc]
  · have := hzero hm
    rw [hkept] at this
    exact (Nat.mul_eq_zero.1 this).resolve_right (by positivity)

theorem finiteFloat_eq (hx : x.isFinite = true) (rest : List Char) :
    finiteFloat x rest = .ok (.float x) := if_pos hx

/-- The numeral of a double is read as that double. -/
theorem Numeral.Valid.reads_float {n : Numeral} (hn : n.Valid) {rest : List Char}
    (hrest : EndsNumber rest) (hx : Exact.ofFloat x = .finite negative m e)
    (hdecimal : n.fraction ≠ [] ∨ n.exponent ≠ none)
    (hlength : (n.whole ++ n.fraction).length ≤ digitsLookedAt)
    (h : snapped n.number = m * 2 ^ e) (hzero : m = 0 → n.number = 0) :
    Reads (readNumber negative (n.text ++ rest)) (.float x) rest := by
  have hfinite := (value_eq_of_exact hx).1
  have hzero' : m = 0 → digitsNumber (n.whole ++ n.fraction) = 0 := fun hm => by
    have := (mul_eq_zero.1 (hzero hm)).resolve_right (zpow_ne_zero _ (by norm_num))
    exact_mod_cast this
  refine hn.reads negative hrest ?_
  rw [if_neg]
  · have hnearest : nearestFloat negative n.whole n.fraction n.power = x :=
      nearestFloat_eq hx hlength h hzero'
    unfold Numeral.power at hnearest
    unfold decimalNumber
    cases hexponent : n.exponent with
    | none =>
      rw [hexponent] at hnearest
      dsimp only at hnearest ⊢
      rw [hnearest]
      exact finiteFloat_eq hfinite rest
    | some exponent =>
      obtain ⟨below, ds⟩ := exponent
      rw [hexponent] at hnearest
      -- the exponent is read in full
      have hroom : digitsToOverflow 0 0 ds = none :=
        digitsToOverflow_eq_none (hn.exponent below ds hexponent).2
      dsimp only at hnearest ⊢
      rw [hroom]
      dsimp only
      rw [digitsValue_eq, hnearest]
      exact finiteFloat_eq hfinite rest
  · rw [Bool.and_eq_true, List.isEmpty_iff, Option.isNone_iff_eq_none]
    exact fun hboth => hdecimal.elim (fun h => h hboth.1) fun h => h hboth.2

end Float

end SpeechTranscript.Json
