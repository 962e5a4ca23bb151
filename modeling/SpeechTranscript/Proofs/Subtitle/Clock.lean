import SpeechTranscript.Proofs.Double.Grid
import SpeechTranscript.Proofs.Subtitle.Reading

/-!
# Timecodes in order

All fields of a timecode have a fixed width, with zeros in front, and the larger units stand first.
So timecodes are ordered as texts as they are ordered in time. Rounding to the millisecond keeps
positions in order, and apart if they are not too close.

* `padded_lt_iff`: numbers in fields of one width.
* `OnClock.write_lt_write_iff`: timecodes as texts.
* `nearestMillis_mono`, `nearestMillis_lt`: positions to the nearest millisecond.
-/

namespace SpeechTranscript

open Json

/-! ## Fields of one width -/

section Fields

/-- Texts that begin with parts of one length are compared by these parts first. -/
theorem append_lt_append_iff {a b : List Char} (h : a.length = b.length) (c d : List Char) :
    a ++ c < b ++ d ↔ a < b ∨ a = b ∧ c < d := by
  induction a generalizing b with
  | nil =>
    obtain rfl := List.length_eq_zero_iff.1 h.symm
    simp
  | cons x a ih =>
    obtain ⟨y, b, rfl⟩ := List.exists_cons_of_length_eq_add_one h.symm
    rw [List.cons_append, List.cons_append, List.cons_lt_cons_iff, List.cons_lt_cons_iff,
      ih (Nat.succ.inj h), List.cons.injEq]
    tauto

variable {ds es : List Char} {d : Char}

/-- What comes after a leading digit counts for less than the digit. -/
theorem mul_add_lt_iff {x y u v base : ℕ} (hu : u < base) (hv : v < base) :
    x * base + u < y * base + v ↔ x < y ∨ x = y ∧ u < v := by
  have hstep : ∀ {x y u v : ℕ}, u < base → x < y → x * base + u < y * base + v := by
    intro x y u v hu hxy
    have hmore := Nat.mul_le_mul_right base (Nat.succ_le_of_lt hxy)
    rw [Nat.succ_mul] at hmore
    omega
  rcases lt_trichotomy x y with hlt | rfl | hgt
  · exact iff_of_true (hstep hu hlt) (.inl hlt)
  · omega
  · have hless : y * base + v < x * base + u := hstep hv hgt
    exact iff_of_false (by omega) (by omega)

theorem digitsNumber_cons (d : Char) (ds : List Char) :
    digitsNumber (d :: ds) = (d.toNat - '0'.toNat) * 10 ^ ds.length + digitsNumber ds := by
  rw [← List.singleton_append, digitsNumber_append]
  simp [digitsNumber, Nat.ofDigitChars_cons]

theorem digit_bounds (h : d.isDigit = true) : '0'.toNat ≤ d.toNat ∧ d.toNat < '0'.toNat + 10 := by
  rw [Char.isDigit, Bool.and_eq_true, decide_eq_true_iff, decide_eq_true_iff] at h
  exact ⟨h.1, Nat.lt_succ_of_le h.2⟩

/-- The number of so many digits is below that power of ten. -/
theorem digitsNumber_lt (h : ∀ d ∈ ds, d.isDigit = true) : digitsNumber ds < 10 ^ ds.length := by
  induction ds with
  | nil => simp [digitsNumber]
  | cons d ds ih =>
    obtain ⟨hd, hds⟩ := List.forall_mem_cons.1 h
    have hrest := ih hds
    obtain ⟨hlow, hhigh⟩ := digit_bounds hd
    rw [digitsNumber_cons, List.length_cons, Nat.pow_succ']
    have hdigit : (d.toNat - '0'.toNat + 1) * 10 ^ ds.length ≤ 10 * 10 ^ ds.length :=
      Nat.mul_le_mul_right _ (by omega)
    rw [Nat.add_one_mul] at hdigit
    omega

/-- Numbers with the same number of digits are compared digit by digit. -/
theorem digits_lt_iff (hlength : ds.length = es.length) (hds : ∀ d ∈ ds, d.isDigit = true)
    (hes : ∀ e ∈ es, e.isDigit = true) : ds < es ↔ digitsNumber ds < digitsNumber es := by
  induction ds generalizing es with
  | nil =>
    obtain rfl := List.length_eq_zero_iff.1 hlength.symm
    simp
  | cons d ds ih =>
    obtain ⟨e, es, rfl⟩ := List.exists_cons_of_length_eq_add_one hlength.symm
    obtain ⟨hd, hds⟩ := List.forall_mem_cons.1 hds
    obtain ⟨he, hes⟩ := List.forall_mem_cons.1 hes
    have hrest := digitsNumber_lt hds
    have hrest' := digitsNumber_lt hes
    have hlength' : ds.length = es.length := Nat.succ.inj hlength
    obtain ⟨hlow, -⟩ := digit_bounds hd
    obtain ⟨hlow', -⟩ := digit_bounds he
    rw [List.cons_lt_cons_iff, ih hlength' hds hes, digitsNumber_cons, digitsNumber_cons, hlength']
    rw [hlength'] at hrest
    -- digits are compared as characters, and their numbers are in the same order
    have hdigits : d < e ↔ d.toNat < e.toNat := Iff.rfl
    rw [mul_add_lt_iff hrest hrest', hdigits, ← Char.toNat_inj]
    omega

variable {width m n : ℕ}

/-- Numbers in fields of one width are ordered as texts as they are as numbers. -/
theorem padded_lt_iff (hpos : 0 < width) (hm : m < 10 ^ width) (hn : n < 10 ^ width) :
    Decimal.padded width m < Decimal.padded width n ↔ m < n := by
  have hlength := (length_padded hpos hm).trans (length_padded hpos hn).symm
  rw [digits_lt_iff hlength (isDigits_padded width m).2 (isDigits_padded width n).2,
    digitsNumber_padded, digitsNumber_padded]

/-- A text that begins with a field is compared by the field first. -/
theorem padded_append_lt_iff (hpos : 0 < width) (hm : m < 10 ^ width) (hn : n < 10 ^ width)
    (mark : Char) (cs ds : List Char) :
    Decimal.padded width m ++ mark :: cs < Decimal.padded width n ++ mark :: ds ↔
      m < n ∨ m = n ∧ cs < ds := by
  have hlength := (length_padded hpos hm).trans (length_padded hpos hn).symm
  have hinjective : Decimal.padded width m = Decimal.padded width n ↔ m = n := by
    constructor
    · intro h
      rw [← digitsNumber_padded width m, h, digitsNumber_padded]
    · rintro rfl
      rfl
  rw [append_lt_append_iff hlength, padded_lt_iff hpos hm hn, hinjective, List.cons_lt_cons_iff]
  simp

end Fields

namespace Timecode

/-! ## Timecodes -/

section Write

variable {t u : Timecode} (ht : t.OnClock) (hu : u.OnClock) (mark : Char)
include ht hu

/-- Timecodes are ordered as texts as they are in time. -/
theorem OnClock.write_lt_write_iff : t.write mark < u.write mark ↔ t.toMillis < u.toMillis := by
  obtain ⟨hhours, hminutes, hseconds, hmillis⟩ := ht
  obtain ⟨hhours', hminutes', hseconds', hmillis'⟩ := hu
  simp only [write, List.append_assoc, List.cons_append]
  rw [padded_append_lt_iff two_pos hhours hhours',
    padded_append_lt_iff two_pos (by omega) (by omega),
    padded_append_lt_iff two_pos (by omega) (by omega),
    padded_lt_iff three_pos hmillis hmillis', toMillis, toMillis]
  omega

theorem OnClock.write_le_write_iff : t.write mark ≤ u.write mark ↔ t.toMillis ≤ u.toMillis := by
  rw [← not_lt, ← not_lt, hu.write_lt_write_iff ht]

end Write

/-! ## Positions -/

section Positions

variable {a b : Duration}

/-- Later positions have no earlier milliseconds. -/
theorem nearestMillis_mono (h : a ≤ b) : nearestMillis a ≤ nearestMillis b := by
  have hvalue : Double.value a.millis ≤ Double.value b.millis := by
    rw [(value_millis a).2, (value_millis b).2]
    exact Double.rounded_mono
      (mul_le_mul_of_nonneg_right ((Duration.le_iff a b).1 h) (by norm_num))
  have hround := Decimal.round_le_round hvalue
  rwa [← nearestMillis_eq_round, ← nearestMillis_eq_round, Nat.cast_le] at hround

/-- Positions that are not too close are rounded to different milliseconds. -/
theorem nearestMillis_lt (h : a.number + 1 / 64 ≤ b.number) : nearestMillis a < nearestMillis b := by
  have hnonneg := a.number_nonneg
  have hnonneg' := b.number_nonneg
  have hday := a.number_le
  have hday' := b.number_le
  -- the product is rounded as well, but by half a millisecond at the most
  have hlow := Double.rounded_le_add (q := a.number * 1000) (e := -1) (by norm_num) (by linarith)
    (by norm_num; linarith)
  have hhigh := Double.sub_le_rounded (q := b.number * 1000) (e := -1) (by norm_num) (by linarith)
    (by norm_num; linarith)
  have hnext : Double.value a.millis + 1 ≤ Double.value b.millis := by
    rw [(value_millis a).2, (value_millis b).2]
    norm_num at hlow hhigh
    linarith
  have hround := Decimal.round_le_round hnext
  rw [round_add_one, ← nearestMillis_eq_round, ← nearestMillis_eq_round] at hround
  omega

end Positions

end Timecode

end SpeechTranscript
