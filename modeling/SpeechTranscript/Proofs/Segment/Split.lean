import SpeechTranscript.Proofs.Double.Grid
import SpeechTranscript.Proofs.Double.Truncation
import SpeechTranscript.Proofs.Segment
import SpeechTranscript.Proofs.Text.Cap
import SpeechTranscript.Proofs.Text.Words
import SpeechTranscript.Segment.Split

/-!
# When a segment can be split

The place where the text is cut is reckoned with doubles, and so is whether a half is too short for
text. Neither goes wrong: the cut stays within the text, and a half that the split takes for too
short is just one that no segment with text can be built of. So a split inside a segment fails only
if there is text and no half can hold it.

* `tooShortForSpeech_iff`: the two ways to tell that a half is too short.
* `proportionalCut_le`: the cut stays within the text.
* `outcome_split`: what a split comes to.
-/

namespace SpeechTranscript.Segment

open Double Text

/-! ## Halves that are too short -/

section Short

/-- The double below the length of the shortest half that is not too short. -/
def longestShortHalf : Duration := ⟨0.09999999899999999, by decide +kernel, by decide +kernel⟩

/-- The value of the shortest half that may have a text. -/
theorem value_shortestSpokenHalf :
    shortestSpokenHalf.isFinite = true ∧
      value shortestSpokenHalf = (7205759331735200 : ℤ) * 2 ^ (-56 : ℤ) := by
  have h : Decimal.Exact.ofFloat shortestSpokenHalf = .finite false 7205759331735200 (-56) := by
    decide +kernel
  exact value_eq_of_exact h

/-- The longest half that may not is one step of the grid shorter. -/
theorem number_longestShortHalf :
    longestShortHalf.number = ((7205759331735200 : ℤ) - 1) * 2 ^ (-56 : ℤ) := by
  have h : Decimal.Exact.ofFloat longestShortHalf.seconds =
      .finite false 7205759331735199 (-56) := by decide +kernel
  rw [Duration.number, (value_eq_of_exact h).2]
  norm_num

/-- It makes no difference whether the slack is added to a length or taken from its bound. -/
theorem seconds_lt_shortestSpokenHalf_iff (d : Duration) :
    d.seconds < shortestSpokenHalf ↔ d.seconds + timeSlack < shortestSpeech := by
  obtain ⟨hfinite, hvalue⟩ := value_shortestSpokenHalf
  rw [lt_iff d.isFinite hfinite, add_timeSlack_lt_iff]
  constructor
  · intro h
    -- the length is at most the last double below the bound
    rw [hvalue] at h
    have hle : d.number ≤ longestShortHalf.number := by
      rw [number_longestShortHalf]
      exact (onGrid_value _).le_of_lt (by norm_num) h
    have hlast : longestShortHalf.seconds + timeSlack < shortestSpeech := by decide +kernel
    exact (rounded_mono (by linarith)).trans_lt ((add_timeSlack_lt_iff _).1 hlast)
  · intro h
    by_contra hlong
    have hbound : ¬ shortestSpokenHalf + timeSlack < shortestSpeech := by decide +kernel
    have hhalf := add_timeSlack_lt_iff ⟨shortestSpokenHalf, by decide +kernel, by decide +kernel⟩
    refine hbound (hhalf.2 ((rounded_mono ?_).trans_lt h))
    exact add_le_add_left (not_lt.1 hlong) _

/-- A half is too short for a split if no segment with text can be built of it. -/
theorem tooShortForSpeech_iff {a b : Duration} (h : a ≤ b) :
    tooShortForSpeech a b = true ↔ (b - a).seconds < shortestSpokenHalf := by
  rw [seconds_lt_shortestSpokenHalf_iff, tooShortForSpeech_iff_lt h]

end Short

/-! ## The cut -/

section Cut

variable {s : Segment} {point : Duration} (hstart : s.start < point) (hstop : point < s.stop)
include hstart hstop

/-- The share of the time before the point. -/
theorem value_share : ((point.seconds - s.start.seconds) / s.duration.seconds).isFinite = true ∧
    0 ≤ value ((point.seconds - s.start.seconds) / s.duration.seconds) ∧
    value ((point.seconds - s.start.seconds) / s.duration.seconds) ≤ 1 := by
  rw [Duration.lt_iff] at hstart hstop
  obtain ⟨hpart, hpart'⟩ := Duration.value_seconds_sub point s.start
  obtain ⟨hwhole, hwhole'⟩ := Duration.value_seconds_sub s.stop s.start
  rw [← seconds_duration] at hwhole hwhole'
  have hpos : 0 < value s.duration.seconds := by
    rw [hwhole']
    exact rounded_sub_pos (onGrid_value _) (onGrid_value _) (hstart.trans hstop)
  have hnonneg : 0 ≤ value (point.seconds - s.start.seconds) := by
    rw [hpart']
    exact rounded_nonneg (by linarith)
  have hle : value (point.seconds - s.start.seconds) ≤ value s.duration.seconds := by
    rw [hpart', hwhole']
    exact rounded_mono (by linarith)
  have hquotient := div_nonneg hnonneg hpos.le
  -- a part is at most the whole, and rounding keeps it so
  have hone : value (point.seconds - s.start.seconds) / value s.duration.seconds ≤ 1 :=
    (div_le_one hpos).2 hle
  obtain ⟨hshare, hshare'⟩ := value_div hpart hwhole hpos.ne' (abs_rounded_lt (by
    rw [abs_of_nonneg hquotient]
    exact hone.trans (by norm_num)))
  refine ⟨hshare, ?_, ?_⟩
  · rw [hshare']
    exact rounded_nonneg hquotient
  · have hrounded : rounded 1 = 1 := by exact_mod_cast rounded_natCast (n := 1) (by norm_num)
    rw [hshare', ← hrounded]
    exact rounded_mono hone

/-- The share of a text that goes with a share of the time is no longer than the text. -/
theorem proportionalCut_le (hsize : s.text.charCount ≤ longestText) :
    s.proportionalCut point ≤ s.text.charCount := by
  obtain ⟨hshare, hnonneg, hone⟩ := value_share hstart hstop
  unfold longestText at hsize
  obtain ⟨hcount, hcount'⟩ := value_ofNat (n := s.text.charCount) (hsize.trans (by norm_num))
  rw [rounded_natCast (lt_of_le_of_lt hsize (by norm_num))] at hcount'
  have hcast : (s.text.charCount : ℚ) ≤ 1000000 := by exact_mod_cast hsize
  have hcast' : (0 : ℚ) ≤ s.text.charCount := Nat.cast_nonneg _
  have hproduct := mul_nonneg hcast' hnonneg
  have hless := mul_le_of_le_one_right hcast' hone
  obtain ⟨hcut, hcut'⟩ := value_mul hcount hshare (abs_rounded_lt (by
    rw [hcount', abs_of_nonneg hproduct]
    exact (hless.trans hcast).trans (by norm_num)))
  rw [hcount'] at hcut'
  -- the share is at most one, so rounding gives no more than the count
  have hbound : value (Float.ofNat s.text.charCount *
      ((point.seconds - s.start.seconds) / s.duration.seconds)) ≤ s.text.charCount := by
    have hwhole : rounded s.text.charCount = s.text.charCount :=
      rounded_natCast (lt_of_le_of_lt hsize (by norm_num))
    exact hcut'.le.trans ((rounded_mono hless).trans hwhole.le)
  rw [proportionalCut, toNat_toUInt64 hcut (by rw [hcut']; exact rounded_nonneg hproduct)
    ((hbound.trans hcast).trans_lt (by norm_num))]
  exact Nat.floor_le_of_le hbound

/-- A half that is too short has nothing of the text. -/
theorem cutAt_eq : s.cutAt point =
    if tooShortForSpeech s.start point then 0
    else if tooShortForSpeech point s.stop then s.text.charCount
    else snap s.text.chars (s.proportionalCut point) := by
  simp only [cutAt, tooShortForSpeech_iff (Duration.le_of_lt hstart),
    tooShortForSpeech_iff (Duration.le_of_lt hstop)]

/-- Wherever a text is cut, it is within the text. -/
theorem cutAt_le (hsize : s.text.charCount ≤ longestText) :
    s.cutAt point ≤ s.text.charCount := by
  rw [cutAt_eq hstart hstop]
  split
  · exact Nat.zero_le _
  · split
    · exact le_rfl
    · exact (snap_le _ _).trans (proportionalCut_le hstart hstop hsize)

end Cut

/-! ## Splitting -/

section Split

variable {s first second : Segment} {point : Duration}

/-- The part of the text that goes to the first half. -/
def head (s : Segment) (point : Duration) : List Char :=
  trim (s.text.chars.take (s.cutAt point))

/-- The part of the text that goes to the second half. -/
def tail (s : Segment) (point : Duration) : List Char :=
  trim (s.text.chars.drop (s.cutAt point))

/-- A split is made of two texts and two segments. -/
theorem split_eq_ok_iff : s.split point = .ok (first, second) ↔
    (s.start < point ∧ point < s.stop) ∧ ∃ headText tailText built built',
      Text.finalized (String.ofList (s.head point)) = .ok headText ∧
      build (s.id ++ "_1") s.start point headText s.confidence s.sequence = .ok built ∧
      Text.finalized (String.ofList (s.tail point)) = .ok tailText ∧
      build (s.id ++ "_2") point s.stop tailText s.confidence (nextSequence s.sequence) =
        .ok built' ∧
      first = built.voicedAs s ∧ second = built'.voicedAs s := by
  constructor
  · intro h
    rw [split] at h
    split at h
    · rename_i hinside
      -- the four steps that can refuse, in their order
      obtain ⟨headText, hhead, h⟩ := bind_eq_ok_iff.1 h
      obtain ⟨built, hbuilt, h⟩ := bind_eq_ok_iff.1 h
      obtain ⟨tailText, htail, h⟩ := bind_eq_ok_iff.1 h
      obtain ⟨built', hbuilt', h⟩ := bind_eq_ok_iff.1 h
      cases h
      exact ⟨hinside, headText, tailText, built, built', orRefuse_eq_ok_iff.1 hhead, hbuilt,
        orRefuse_eq_ok_iff.1 htail, hbuilt', rfl, rfl⟩
    · contradiction
  · rintro ⟨hinside, headText, tailText, built, built', hhead, hbuilt, htail, hbuilt', rfl, rfl⟩
    rw [split, if_pos hinside]
    exact bind_eq_ok_iff.2 ⟨headText, orRefuse_eq_ok_iff.2 hhead, bind_eq_ok_iff.2 ⟨built, hbuilt,
      bind_eq_ok_iff.2 ⟨tailText, orRefuse_eq_ok_iff.2 htail,
        bind_eq_ok_iff.2 ⟨built', hbuilt', rfl⟩⟩⟩⟩

/-- A trimmed piece of a text that is no longer than allowed is not either. -/
theorem finalized_trim {cs : List Char} (h : cs.length ≤ longestText) :
    Text.finalized (String.ofList (trim cs)) = .ok ⟨String.ofList (trim cs), true⟩ := by
  refine ofContent_eq_ok_iff.2 ⟨rfl, ?_⟩
  rw [Capped, charCount, String.length_ofList]
  exact (length_trim_le cs).trans h

theorem isEmpty_trim (cs : List Char) :
    (⟨String.ofList (trim cs), true⟩ : Text).isEmpty = allBlank cs := by
  rw [Text.isEmpty, Text.chars, String.toList_ofList, allBlank_trim]

section Inside

variable (hstart : s.start < point) (hstop : point < s.stop)
include hstart hstop

/-- A first half that is too short gets no text. -/
theorem isEmpty_head (h : tooShortForSpeech s.start point = true) :
    (⟨String.ofList (s.head point), true⟩ : Text).isEmpty = true := by
  rw [head, isEmpty_trim, cutAt_eq hstart hstop, if_pos h]
  rfl

/-- A second half that is too short gets no text, unless the first one is too short as well. Then it
gets all of it. -/
theorem isEmpty_tail_iff (h : tooShortForSpeech point s.stop = true) :
    (⟨String.ofList (s.tail point), true⟩ : Text).isEmpty = true ↔
      s.text.isEmpty = true ∨ tooShortForSpeech s.start point = false := by
  rw [tail, isEmpty_trim, cutAt_eq hstart hstop]
  cases hfirst : tooShortForSpeech s.start point with
  | true =>
    rw [if_pos rfl, List.drop_zero]
    exact (or_iff_left (by simp)).symm
  | false =>
    have hlength : s.text.charCount = s.text.chars.length := String.length_toList.symm
    rw [if_neg (by simp), if_pos h, hlength, List.drop_length]
    exact iff_of_true rfl (.inr rfl)

/-- The two segments that a split inside a segment has to build. -/
theorem split_of_inside (hsize : s.text.charCount ≤ longestText) : s.split point = do
    let first ← build (s.id ++ "_1") s.start point ⟨String.ofList (s.head point), true⟩
      s.confidence s.sequence
    let second ← build (s.id ++ "_2") point s.stop ⟨String.ofList (s.tail point), true⟩
      s.confidence (nextSequence s.sequence)
    return (first.voicedAs s, second.voicedAs s) := by
  have hlength : s.text.chars.length ≤ longestText := by
    rw [Text.chars, String.length_toList]
    exact hsize
  have hhead : Text.finalized (String.ofList (s.head point)) = _ :=
    finalized_trim ((List.take_sublist _ _).length_le.trans hlength)
  have htail : Text.finalized (String.ofList (s.tail point)) = _ :=
    finalized_trim ((List.drop_sublist _ _).length_le.trans hlength)
  rw [split, if_pos ⟨hstart, hstop⟩]
  rw [head] at hhead ⊢
  rw [tail] at htail ⊢
  simp only [hhead, htail]
  rfl

/-- The first half can always be built. -/
theorem exists_build_head : ∃ first, build (s.id ++ "_1") s.start point
    ⟨String.ofList (s.head point), true⟩ s.confidence s.sequence = .ok first :=
  exists_build_iff.2 ⟨hstart, isEmpty_head hstart hstop⟩

/-- A segment can be split inside if it says nothing, or if one of the halves has room for a text.
-/
theorem exists_split_iff (hsize : s.text.charCount ≤ longestText) :
    (∃ halves, s.split point = .ok halves) ↔ s.text.isEmpty = true ∨
      tooShortForSpeech s.start point = false ∨ tooShortForSpeech point s.stop = false := by
  obtain ⟨first, hfirst⟩ := exists_build_head hstart hstop
  have hsecond : (∃ halves, s.split point = .ok halves) ↔
      ∃ second, build (s.id ++ "_2") point s.stop ⟨String.ofList (s.tail point), true⟩
        s.confidence (nextSequence s.sequence) = .ok second := by
    rw [split_of_inside hstart hstop hsize]
    constructor
    · rintro ⟨halves, h⟩
      obtain ⟨_, _, h⟩ := bind_eq_ok_iff.1 h
      obtain ⟨second, hsecond, -⟩ := bind_eq_ok_iff.1 h
      exact ⟨second, hsecond⟩
    · rintro ⟨second, hsecond⟩
      exact ⟨_, bind_eq_ok_iff.2 ⟨first, hfirst, bind_eq_ok_iff.2 ⟨second, hsecond, rfl⟩⟩⟩
  rw [hsecond, exists_build_iff, and_iff_right hstop]
  -- the tail has room for its text or has to be blank
  cases hshort : tooShortForSpeech point s.stop with
  | true => simp [isEmpty_tail_iff hstart hstop hshort]
  | false => simp

/-- Only the second half can be refused. -/
theorem refusal_of_split (hsize : s.text.charCount ≤ longestText) {refusal : Refusal}
    (h : s.split point = .error refusal) :
    refusal = .segmentTooShort (s.stop.seconds - point.seconds) := by
  obtain ⟨first, hfirst⟩ := exists_build_head hstart hstop
  rw [split_of_inside hstart hstop hsize, hfirst] at h
  rcases bind_eq_error_iff.1 h with h | ⟨first', -, h⟩
  · contradiction
  · rcases bind_eq_error_iff.1 h with h | ⟨second, -, h⟩
    · exact build_eq_error hstop h
    · contradiction

end Inside

/-- What a split comes to. -/
structure SplitOutcome (s : Segment) (point : Duration) : Prop where
  /-- The text is cut within its bounds. -/
  within : s.start < point → point < s.stop →
    s.proportionalCut point ≤ s.text.charCount ∧ s.cutAt point ≤ s.text.charCount
  /-- A segment is split only between its ends. -/
  outside_iff : s.split point = .error (.splitOutside point s.start s.stop) ↔
    ¬ (s.start < point ∧ point < s.stop)
  /-- There it can be, unless there is text and both halves are too short for it. -/
  succeeds_iff : s.start < point → point < s.stop → ((∃ halves, s.split point = .ok halves) ↔
    s.text.isEmpty = true ∨ tooShortForSpeech s.start point = false ∨
      tooShortForSpeech point s.stop = false)
  /-- Then it is refused as a segment that is too short, and for no other reason. -/
  refused : s.start < point → point < s.stop → ∀ refusal, s.split point = .error refusal →
    refusal = .segmentTooShort (s.stop.seconds - point.seconds)

/-- How a segment can be split whose text is no longer than allowed. -/
theorem outcome_split (s : Segment) (point : Duration) (hsize : s.text.charCount ≤ longestText) :
    s.SplitOutcome point where
  within hstart hstop := ⟨proportionalCut_le hstart hstop hsize, cutAt_le hstart hstop hsize⟩
  outside_iff := by
    constructor
    · rintro h ⟨hstart, hstop⟩
      cases refusal_of_split hstart hstop hsize h
    · intro h
      rw [split, if_neg h]
  succeeds_iff hstart hstop := exists_split_iff hstart hstop hsize
  refused hstart hstop _ := refusal_of_split hstart hstop hsize

/-- Two words in a second. -/
def twoWords : Segment where
  id := "segment_1"
  start := .zero
  stop := ⟨1, by decide +kernel, by decide +kernel⟩
  text := ⟨"hello there", true⟩
  confidence := .certain
  sequence := 1
  speaker := some "a"
  language := none
  start_lt_stop := by decide +kernel
  blank_of_short := by decide +kernel

/-- A point just past the blank between the two words. -/
def pastBlank : Duration := ⟨0.55, by decide +kernel, by decide +kernel⟩

theorem outcome_twoWords :
    twoWords.text.charCount ≤ longestText ∧ twoWords.SplitOutcome pastBlank :=
  ⟨by decide +kernel, outcome_split _ _ (by decide +kernel)⟩

end Split

end SpeechTranscript.Segment
