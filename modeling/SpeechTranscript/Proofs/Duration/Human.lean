import SpeechTranscript.Proofs.Decimal.Fixed
import SpeechTranscript.Proofs.Decimal.Remainder
import SpeechTranscript.Proofs.Double.Quotients
import SpeechTranscript.Proofs.Double.Truncation
import SpeechTranscript.Proofs.Subtitle.Reading
import SpeechTranscript.Proofs.Text.Pieces

/-!
# Lengths of time as people read them

A length of time is written with its hours, its minutes and its seconds to one decimal place, where
what is nothing in front is left out. A reader of such texts finds the whole minutes as they are,
divided into hours, and the seconds past them to the nearest tenth. The tenths are rounded after the
minutes are counted, so the last half of a tenth before a full minute is written as 60.0 seconds.

* `read?_human`: the fields that are read back.
* `fields_human`: when the fields are those of a clock, and what they add up to.
-/

namespace SpeechTranscript.Duration

open Double Decimal Json

/-! ## Reading -/

/-- What the text of a length of time says. Hours and minutes may be missing; the seconds have one
decimal place. -/
structure Fields where
  hours : Option ℕ
  minutes : Option ℕ
  tenths : ℤ
  deriving DecidableEq

/-- What stands before a unit. -/
def beforeUnit? (unit : Char) (cs : List Char) : Option (List Char) :=
  if cs.getLast? = some unit then some cs.dropLast else none

/-- A whole number with its unit. -/
def readCount? (unit : Char) (cs : List Char) : Option ℕ :=
  (beforeUnit? unit cs).bind readNumber?

/-- The tenths that digits, a point and one more digit stand for. -/
def readPlace? (cs : List Char) : Option ℕ :=
  match Text.splitWhere (· == '.') cs with
  | [whole, [place]] => do
    let n ← readNumber? whole
    let d ← readNumber? [place]
    return 10 * n + d
  | _ => none

/-- The same, perhaps with a minus sign. -/
def readSigned? : List Char → Option ℤ
  | '-' :: cs => (readPlace? cs).map Int.negOfNat
  | cs => (readPlace? cs).map Int.ofNat

/-- Seconds with one decimal place and their unit. -/
def readTenths? (cs : List Char) : Option ℤ :=
  (beforeUnit? 's' cs).bind readSigned?

namespace Fields

def read? (text : String) : Option Fields :=
  match Text.splitWhere (· == ' ') text.toList with
  | [seconds] => do
    return ⟨none, none, ← readTenths? seconds⟩
  | [minutes, seconds] => do
    return ⟨none, ← readCount? 'm' minutes, ← readTenths? seconds⟩
  | [hours, minutes, seconds] => do
    return ⟨← readCount? 'h' hours, ← readCount? 'm' minutes, ← readTenths? seconds⟩
  | _ => none

/-- The seconds that the fields add up to. -/
def total (f : Fields) : ℚ := 3600 * f.hours.getD 0 + 60 * f.minutes.getD 0 + f.tenths / 10

/-- The fields before the seconds are as on a clock, and the first one that is there counts for
something. -/
structure Proper (f : Fields) : Prop where
  tenths_nonneg : 0 ≤ f.tenths
  minutes_lt : ∀ m ∈ f.minutes, m < 60
  leading_minutes : f.hours = none → ∀ m ∈ f.minutes, 1 ≤ m
  leading_hours : ∀ h ∈ f.hours, 1 ≤ h ∧ f.minutes.isSome

end Fields

section Pieces

theorem beforeUnit?_append (unit : Char) (cs : List Char) :
    beforeUnit? unit (cs ++ [unit]) = some cs := by
  rw [beforeUnit?, List.getLast?_concat, if_pos rfl, List.dropLast_concat]

theorem readCount?_toDigits (unit : Char) (n : ℕ) :
    readCount? unit (Nat.toDigits 10 n ++ [unit]) = some n := by
  rw [readCount?, beforeUnit?_append, Option.bind_some,
    readNumber?_of_isDigits (isDigits_toDigits n), digitsNumber_toDigits]

/-- No digit is one of the other marks. -/
theorem beq_eq_false_of_mem_toDigits {mark : Char} (hmark : mark.isDigit = false) (n : ℕ) :
    ∀ c ∈ Nat.toDigits 10 n, (c == mark) = false := by
  intro c hc
  refine beq_eq_false_iff_ne.2 fun heq => ?_
  rw [← heq, (isDigits_toDigits n).2 c hc] at hmark
  contradiction

/-- Tenths are read back from their quotient by ten, a point and their last digit. -/
theorem readPlace?_toDigits (n : ℕ) :
    readPlace? (Nat.toDigits 10 (n / 10) ++ '.' :: Nat.toDigits 10 (n % 10)) = some n := by
  have hlast : Nat.toDigits 10 (n % 10) = [Nat.digitChar (n % 10)] :=
    Nat.toDigits_of_lt_base (Nat.mod_lt n (by norm_num))
  rw [readPlace?, Text.splitWhere_append_of_forall (beq_eq_false_of_mem_toDigits rfl _) rfl,
    Text.splitWhere_of_forall (beq_eq_false_of_mem_toDigits rfl _), hlast]
  dsimp only
  rw [← hlast, readNumber?_of_isDigits (isDigits_toDigits _),
    readNumber?_of_isDigits (isDigits_toDigits _), digitsNumber_toDigits, digitsNumber_toDigits]
  -- ten times the quotient and the last digit
  exact congrArg some (Nat.div_add_mod n 10)

/-- Without a minus in front tenths are read as they are. -/
theorem readSigned?_of_ne {c : Char} (h : c ≠ '-') (cs : List Char) :
    readSigned? (c :: cs) = (readPlace? (c :: cs)).map Int.ofNat := by
  unfold readSigned?
  split
  · rename_i heq
    exact absurd (List.cons.inj heq).1 h
  · rfl

variable {x : Float}

/-- Seconds that are not negative are read as their tenths. -/
theorem readTenths?_fixed (hx : x.isFinite = true) (hnonneg : 0 ≤ value x) :
    readTenths? ((fixed 1 x).toList ++ ['s']) = some (tenths (value x) : ℤ) := by
  obtain ⟨negative, hzero, hwritten⟩ := toList_fixed_one hx hnonneg
  have hread := readPlace?_toDigits (tenths (value x))
  rw [readTenths?, beforeUnit?_append, Option.bind_some, hwritten]
  cases negative with
  | true =>
    -- a sign is written with a zero only, and minus zero is zero
    rw [hzero rfl] at hread ⊢
    rw [if_pos rfl, List.append_assoc, List.singleton_append, readSigned?, hread]
    rfl
  | false =>
    rw [if_neg Bool.false_ne_true, List.nil_append]
    -- a digit in front is not taken for a sign
    obtain ⟨d, ds, hdigits⟩ := List.exists_cons_of_ne_nil
      (isDigits_toDigits (tenths (value x) / 10)).1
    have hd : d ≠ '-' := beq_eq_false_iff_ne.1
      (beq_eq_false_of_mem_toDigits rfl _ d (hdigits ▸ List.mem_cons_self))
    rw [hdigits, List.cons_append] at hread ⊢
    rw [readSigned?_of_ne hd, hread]
    rfl

/-- A number with its unit has no space in it, so the text is not cut inside. -/
theorem not_space_of_mem_count {unit : Char} (hunit : (unit == ' ') = false) (n : ℕ) :
    ∀ c ∈ Nat.toDigits 10 n ++ [unit], (c == ' ') = false := by
  intro c hc
  rcases List.mem_append.1 hc with hc | hc
  · exact beq_eq_false_of_mem_toDigits rfl n c hc
  · rw [List.mem_singleton.1 hc]
    exact hunit

/-- There is no space in seconds with one decimal place. -/
theorem not_space_of_mem_fixed (hx : x.isFinite = true) (hnonneg : 0 ≤ value x) :
    ∀ c ∈ (fixed 1 x).toList ++ ['s'], (c == ' ') = false := by
  obtain ⟨negative, -, hwritten⟩ := toList_fixed_one hx hnonneg
  intro c hc
  rw [hwritten] at hc
  simp only [List.mem_append, List.mem_cons, List.not_mem_nil, or_false] at hc
  -- the sign, the digits before the point, the point, the digit behind it and the unit
  rcases hc with ((hc | hc) | rfl | hc) | rfl
  · cases negative
    · contradiction
    · rw [List.mem_singleton.1 hc]
      rfl
  · exact beq_eq_false_of_mem_toDigits rfl _ c hc
  · rfl
  · exact beq_eq_false_of_mem_toDigits rfl _ c hc
  · rfl

end Pieces

/-! ## Writing -/

section Written

variable (d : Duration)

/-- The full minutes of a length of time. -/
def fullMinutes : ℕ := ⌊d.number / 60⌋₊

/-- What a length of time is written with. -/
def fields : Fields :=
  let past := tenths (d.number - 60 * d.fullMinutes)
  if d.fullMinutes = 0 then ⟨none, none, past⟩
  else if d.fullMinutes < 60 then ⟨none, some d.fullMinutes, past⟩
  else ⟨some (d.fullMinutes / 60), some (d.fullMinutes % 60), past⟩

/-- The full minutes fit into the length of time, and one more would not. -/
theorem fullMinutes_bounds :
    60 * d.fullMinutes ≤ d.number ∧ d.number < 60 * d.fullMinutes + 60 := by
  have hquotient : 0 ≤ d.number / 60 := div_nonneg d.number_nonneg (by norm_num)
  have hlow := Nat.floor_le hquotient
  have hhigh := Nat.lt_floor_add_one (d.number / 60)
  rw [le_div_iff₀ (by norm_num)] at hlow
  rw [div_lt_iff₀ (by norm_num)] at hhigh
  unfold fullMinutes
  constructor <;> linarith

theorem fullMinutes_eq_zero_iff : d.fullMinutes = 0 ↔ d.number < 60 := by
  rw [fullMinutes, Nat.floor_eq_zero, div_lt_one (by norm_num)]

theorem fullMinutes_lt_iff : d.fullMinutes < 60 ↔ d.number < 3600 := by
  rw [fullMinutes, Nat.floor_lt (div_nonneg d.number_nonneg (by norm_num)),
    div_lt_iff₀ (by norm_num)]
  norm_num

/-- The full hours are those of the full minutes. -/
theorem floor_hours : ⌊d.number / 3600⌋₊ = d.fullMinutes / 60 := by
  have hsplit : d.number / 3600 = d.number / 60 / (60 : ℕ) := by
    rw [div_div]
    norm_num
  rw [hsplit, Nat.floor_div_natCast, fullMinutes]

/-- A length of time is compared with a whole number of seconds as the numbers are. This tells which
of the three branches of the writer is taken. -/
theorem seconds_lt_iff {c : ℕ} (hc : c < 2 ^ 53) :
    d.seconds < Float.ofNat c ↔ d.number < c := by
  obtain ⟨hfinite, hvalue⟩ := value_ofNat_of_lt hc
  rw [Double.lt_iff d.isFinite hfinite, hvalue, number]

/-- What whole multiples of a number of seconds leave. -/
theorem value_remainder_seconds {c : ℕ} (hpos : 0 < c) (hc : c < 2 ^ 53) :
    (remainder d.seconds (Float.ofNat c)).isFinite = true ∧
      value (remainder d.seconds (Float.ofNat c)) = d.number - c * ⌊d.number / c⌋₊ := by
  obtain ⟨hfinite, hvalue⟩ := value_ofNat_of_lt hc
  have hrest := value_remainder d.isFinite hfinite d.number_nonneg
    (by rw [hvalue]; exact_mod_cast hpos)
  rwa [hvalue] at hrest

/-- The seconds past the last full minute. -/
theorem value_past : (remainder d.seconds 60).isFinite = true ∧
    value (remainder d.seconds 60) = d.number - 60 * d.fullMinutes :=
  d.value_remainder_seconds (c := 60) (by norm_num) (by norm_num)

theorem past_nonneg : 0 ≤ value (remainder d.seconds 60) := by
  rw [d.value_past.2]
  linarith [d.fullMinutes_bounds.1]

/-- How many times a number of seconds goes into a length of time. -/
theorem toNat_seconds_div {c : ℕ} (hpos : 0 < c) (hc : c ≤ 3600) :
    (d.seconds / Float.ofNat c).toUInt64.toNat = ⌊d.number / c⌋₊ := by
  have hc' : (c : ℚ) ≤ 3600 := by exact_mod_cast hc
  refine toNat_div d.isFinite d.number_nonneg hpos ?_
  change d.number + c < 2 ^ 53
  -- a day of seconds is small enough for the quotient to be cut exactly
  linarith [d.number_le]

/-- A division of doubles, cut to a whole number, counts the full minutes without a mistake. -/
theorem toNat_minutes : (d.seconds / 60).toUInt64.toNat = d.fullMinutes :=
  d.toNat_seconds_div (c := 60) (by norm_num) (by norm_num)

theorem toNat_hours : (d.seconds / 3600).toUInt64.toNat = d.fullMinutes / 60 :=
  (d.toNat_seconds_div (c := 3600) (by norm_num) le_rfl).trans d.floor_hours

/-- The minutes past the last full hour. -/
theorem toNat_minutes_past :
    (remainder d.seconds 3600 / 60).toUInt64.toNat = d.fullMinutes % 60 := by
  obtain ⟨hfinite, hvalue⟩ := d.value_remainder_seconds (c := 3600) (by norm_num) (by norm_num)
  have hhours : ⌊d.number / (3600 : ℕ)⌋₊ = d.fullMinutes / 60 := d.floor_hours
  have hless : ((d.fullMinutes / 60 : ℕ) : ℚ) * 60 ≤ d.fullMinutes := by
    exact_mod_cast Nat.div_mul_le_self _ _
  have hbounds := d.fullMinutes_bounds
  have hday := d.number_le
  -- sixty times the full hours, taken from the full minutes
  have hquotient : (d.number - 3600 * (d.fullMinutes / 60 : ℕ)) / 60 =
      d.number / 60 - (60 * (d.fullMinutes / 60) : ℕ) := by
    push_cast
    ring
  rw [hhours, Nat.cast_ofNat] at hvalue
  have hwhole := toNat_div (c := 60) hfinite (by rw [hvalue]; linarith) (by norm_num)
    (by rw [hvalue]; norm_num; linarith)
  rw [hvalue, Nat.cast_ofNat, hquotient, Nat.floor_sub_natCast] at hwhole
  refine hwhole.trans ?_
  change d.fullMinutes - _ = _
  omega

variable {d}

/-- What is written below a minute: the seconds. -/
theorem toList_human_of_lt_minute (h : d.number < 60) :
    d.human.toList = (fixed 1 d.seconds).toList ++ ['s'] := by
  have hminute : d.seconds < 60 := (d.seconds_lt_iff (c := 60) (by norm_num)).2 h
  unfold human
  dsimp only
  rw [if_pos hminute, String.toList_append]
  rfl

/-- What is written from a minute up to an hour: minutes, and the seconds past them. -/
theorem toList_human_of_lt_hour (h : 60 ≤ d.number) (h' : d.number < 3600) :
    d.human.toList = (Nat.toDigits 10 d.fullMinutes ++ ['m']) ++ ' ' ::
      ((fixed 1 (remainder d.seconds 60)).toList ++ ['s']) := by
  have hminute : ¬ d.seconds < 60 := fun lt =>
    ((d.seconds_lt_iff (c := 60) (by norm_num)).1 lt).not_ge h
  have hhour : d.seconds < 3600 :=
    (d.seconds_lt_iff (c := 3600) (by norm_num)).2 (by exact_mod_cast h')
  unfold human
  dsimp only
  rw [if_neg hminute, if_pos hhour, toNat_minutes]
  simp [toString, Nat.repr]

/-- What is written from an hour on: hours, minutes and seconds. -/
theorem toList_human_of_le (h : 3600 ≤ d.number) :
    d.human.toList = (Nat.toDigits 10 (d.fullMinutes / 60) ++ ['h']) ++ ' ' ::
      ((Nat.toDigits 10 (d.fullMinutes % 60) ++ ['m']) ++ ' ' ::
        ((fixed 1 (remainder d.seconds 60)).toList ++ ['s'])) := by
  -- neither of the shorter forms is taken
  have hminute : ¬ d.seconds < 60 := fun lt => by
    have := (d.seconds_lt_iff (c := 60) (by norm_num)).1 lt
    norm_num at this
    linarith
  have hhour : ¬ d.seconds < 3600 := fun lt =>
    ((d.seconds_lt_iff (c := 3600) (by norm_num)).1 lt).not_ge (by exact_mod_cast h)
  unfold human
  dsimp only
  rw [if_neg hminute, if_neg hhour, toNat_hours, toNat_minutes_past]
  simp [toString, Nat.repr]

/-- The reader finds the full minutes, divided into hours, and the tenths past them. -/
theorem read?_human (d : Duration) : Fields.read? d.human = some d.fields := by
  have hzero := d.fullMinutes_eq_zero_iff
  have hhour := d.fullMinutes_lt_iff
  obtain ⟨hfinite, hpast⟩ := d.value_past
  have htenths := readTenths?_fixed hfinite d.past_nonneg
  have hplain := not_space_of_mem_fixed hfinite d.past_nonneg
  rw [hpast] at htenths
  unfold fields Fields.read?
  dsimp only
  -- the branches taken by the exact seconds are those of the full minutes
  split_ifs with hnone hsome
  · have htenths := readTenths?_fixed d.isFinite d.number_nonneg
    rw [toList_human_of_lt_minute (hzero.1 hnone),
      Text.splitWhere_of_forall (not_space_of_mem_fixed d.isFinite d.number_nonneg)]
    dsimp only
    rw [htenths, hnone, Nat.cast_zero, mul_zero, sub_zero]
    rfl
  · have hminute : 60 ≤ d.number := not_lt.1 fun lt => hnone (hzero.2 lt)
    rw [toList_human_of_lt_hour hminute (hhour.1 hsome),
      Text.splitWhere_append_of_forall (not_space_of_mem_count rfl _) rfl,
      Text.splitWhere_of_forall hplain]
    dsimp only
    rw [readCount?_toDigits, htenths]
    rfl
  · rw [toList_human_of_le (not_lt.1 fun lt => hsome (hhour.2 lt)),
      Text.splitWhere_append_of_forall (not_space_of_mem_count rfl _) rfl,
      Text.splitWhere_append_of_forall (not_space_of_mem_count rfl _) rfl,
      Text.splitWhere_of_forall hplain]
    dsimp only
    rw [readCount?_toDigits, readCount?_toDigits, htenths]
    rfl

example : Fields.read? "1h 2m 3.0s" = some ⟨some 1, some 2, 30⟩ := by decide +kernel

end Written

/-! ## What is read -/

section Fields

variable (d : Duration)

/-- The fields are those of a clock: minutes below sixty beside hours, and nothing in front that is
zero. -/
theorem proper_fields : d.fields.Proper := by
  unfold fields
  dsimp only
  split_ifs with hnone hsome
  · exact ⟨Int.natCast_nonneg _, nofun, nofun, nofun⟩
  · exact ⟨Int.natCast_nonneg _, by simpa using hsome,
      fun _ m hm => Option.mem_some.1 hm ▸ Nat.one_le_iff_ne_zero.2 hnone, nofun⟩
  · refine ⟨Int.natCast_nonneg _, ?_, nofun, ?_⟩ <;> simp <;> omega

theorem tenths_fields : d.fields.tenths = tenths (d.number - 60 * d.fullMinutes) := by
  unfold fields
  dsimp only
  split_ifs <;> rfl

/-- However they are divided, the fields stand for the full minutes and the tenths past them. -/
theorem total_fields :
    d.fields.total = 60 * d.fullMinutes + (tenths (d.number - 60 * d.fullMinutes) : ℚ) / 10 := by
  have hparts : (60 : ℚ) * (d.fullMinutes / 60 : ℕ) + (d.fullMinutes % 60 : ℕ) = d.fullMinutes := by
    exact_mod_cast Nat.div_add_mod d.fullMinutes 60
  unfold fields Fields.total
  dsimp only
  split_ifs with hnone hsome
  · simp [hnone]
  · simp
  · simp only [Option.getD_some, Int.cast_natCast]
    -- hours and minutes add up to the full minutes
    linear_combination 60 * hparts

/-- A length of time is written so that it can be read back to the nearest tenth of a second, with
minutes below 60, and with nothing in front that counts for nothing. The seconds are below 60.0 as
written exactly if they are more than half a tenth short of a minute. -/
theorem fields_human : ∃ f, Fields.read? d.human = some f ∧ f.Proper ∧
    |f.total - d.number| ≤ 1 / 20 ∧
    (f.tenths < 600 ↔ d.number - 60 * ⌊d.number / 60⌋ < 59.95) := by
  have hpast : 0 ≤ d.number - 60 * d.fullMinutes := by linarith [d.fullMinutes_bounds.1]
  have hfloor : (⌊d.number / 60⌋ : ℚ) = d.fullMinutes := by
    rw [fullMinutes, ← natCast_floor_eq_intCast_floor (div_nonneg d.number_nonneg (by norm_num))]
  refine ⟨d.fields, read?_human d, d.proper_fields, ?_, ?_⟩
  · have hnear := abs_tenths_sub_le hpast
    rw [total_fields]
    convert hnear using 2
    ring
  · -- rounding comes after the minutes are counted, so half a tenth below the minute is 60.0
    have hless := tenths_lt_iff hpast (k := 600) (by norm_num)
    rw [tenths_fields, hfloor]
    norm_num at hless ⊢
    exact hless

/-- Three hundredths of a second before a minute is full. -/
def nearMinute : Duration := ⟨59.97, by decide +kernel, by decide +kernel⟩

/-- That duration is written as 60.0 seconds. -/
theorem not_tenths_lt_nearMinute :
    ¬ ∃ f, Fields.read? nearMinute.human = some f ∧ f.tenths < 600 := by
  have hread : Fields.read? nearMinute.human = some ⟨none, none, 600⟩ := by decide +kernel
  rintro ⟨f, hf, hlt⟩
  rw [hread, Option.some.injEq] at hf
  subst hf
  exact absurd hlt (by decide)

end Fields

end SpeechTranscript.Duration
