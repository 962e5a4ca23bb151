import SpeechTranscript.Proofs.Segment.Split

/-!
# What the halves of a segment hold

A split loses no character but blanks. It keeps the words whole if one half gets all of the text, or
if there is a blank near enough before the place where the text would be cut by the time alone. The
search for this blank is reckoned with doubles, which agree with the numbers for any text whose
halves are no longer than allowed.

* `lastBlank?_cases`: what the search finds.
* `past_of_near`: a blank that is near enough by the numbers is so by the doubles.
* `halved_split`: what the two halves of a segment hold.
-/

namespace SpeechTranscript.Segment

open Double Text

/-! ## The last blank -/

/-- The characters before a cut, up to their last blank and after it. -/
theorem lastBlank?_cases (cs : List Char) (cut : ℕ) :
    (lastBlank? cs cut = none ∧ ∀ c ∈ cs.take cut, isBlank c = false) ∨
      ∃ front c after, cs.take cut = front ++ c :: after ∧ isBlank c = true ∧
        (∀ c ∈ after, isBlank c = false) ∧ lastBlank? cs cut = some front.length := by
  -- the search goes backwards
  set after := (cs.take cut).reverse.takeWhile (!isBlank ·) with hafter
  have hparts : after ++ (cs.take cut).reverse.dropWhile (!isBlank ·) = (cs.take cut).reverse :=
    List.takeWhile_append_dropWhile
  have hnone : ∀ c ∈ after, isBlank c = false := fun c hc => by
    simpa using List.mem_takeWhile_imp hc
  have hlength := congrArg List.length hparts
  rw [List.length_append, List.length_reverse, List.length_take] at hlength
  have hsearch : lastBlank? cs cut = if min cut cs.length - after.length = 0 then none
    else some (min cut cs.length - after.length - 1) := rfl
  cases hrest : (cs.take cut).reverse.dropWhile (!isBlank ·) with
  | nil =>
    rw [hrest] at hparts hlength
    refine .inl ⟨?_, fun c hc => hnone c ?_⟩
    · rw [hsearch, if_pos (by rw [List.length_nil] at hlength; omega)]
    · rw [List.append_nil] at hparts
      rwa [hparts, List.mem_reverse]
  | cons c front =>
    have hblank : isBlank c = true := by
      have hhead := List.head_dropWhile_not (!isBlank ·) (l := (cs.take cut).reverse)
        (by rw [hrest]; exact List.cons_ne_nil _ _)
      simpa [hrest] using hhead
    rw [hrest] at hparts hlength
    rw [List.length_cons] at hlength
    refine .inr ⟨front.reverse, c, after.reverse, ?_, hblank, ?_, ?_⟩
    · rw [← List.reverse_reverse (cs.take cut), ← hparts, List.reverse_append, List.reverse_cons,
        List.append_assoc, List.singleton_append]
    · simpa using hnone
    · rw [hsearch, if_neg (by omega), List.length_reverse]
      congr 1
      omega

/-! ## Near enough -/

/-- A cut is snapped back by no more than three tenths. -/
theorem value_snapShare : snapShare.isFinite = true ∧ 0 ≤ value snapShare ∧
    value snapShare ≤ 7 / 10 := by
  have h : Decimal.Exact.ofFloat snapShare = .finite false 6305039478318694 (-53) := by
    decide +kernel
  obtain ⟨hfinite, hvalue⟩ := value_eq_of_exact h
  rw [hvalue]
  refine ⟨hfinite, ?_, ?_⟩ <;> norm_num

section Near

variable {cut blank : ℕ}

/-- The number that a blank has to be past. -/
theorem value_snapShare_mul (hcut : cut < 2 ^ 64) :
    (Float.ofNat cut * snapShare).isFinite = true ∧
      value (Float.ofNat cut * snapShare) = rounded (rounded cut * value snapShare) := by
  obtain ⟨hshare, hnonneg, hless⟩ := value_snapShare
  obtain ⟨hwhole, hwhole'⟩ := value_ofNat (n := cut) (by omega)
  have hbound : rounded cut ≤ 2 ^ 64 := by
    have h := abs_rounded_le (q := cut) 64 (by rw [Nat.abs_cast]; exact_mod_cast hcut.le)
    exact (le_abs_self _).trans h
  have hcut' : 0 ≤ rounded (cut : ℚ) := rounded_nonneg (Nat.cast_nonneg _)
  have hproduct := value_mul hwhole hshare (abs_rounded_lt (by
    rw [hwhole', abs_of_nonneg (mul_nonneg hcut' hnonneg)]
    nlinarith))
  rwa [hwhole'] at hproduct

/-- A blank that is past its bound by the numbers is so by the doubles, if the numbers are small or
it is not far from the cut. -/
theorem past_of_near (hcut : cut < 2 ^ 64) (hblank : blank < cut) (hpast : 7 * cut < 10 * blank)
    (hnear : cut < 2 ^ 45 ∨ cut ≤ blank + 1 + longestText) :
    Float.ofNat cut * snapShare < Float.ofNat blank := by
  obtain ⟨hfinite, hvalue⟩ := value_snapShare_mul hcut
  obtain ⟨hfinite', hvalue'⟩ := value_ofNat (n := blank) (by omega)
  obtain ⟨-, hnonneg, hless⟩ := value_snapShare
  rw [lt_iff hfinite hfinite', hvalue, hvalue']
  have hpast' : 7 * (cut : ℚ) + 1 ≤ 10 * blank := by exact_mod_cast hpast
  have hcut' : (0 : ℚ) ≤ cut := Nat.cast_nonneg _
  rcases lt_or_ge cut (2 ^ 45) with hsmall | hlarge
  · -- whole numbers as small as these are doubles
    rw [rounded_natCast (hsmall.trans (by norm_num)),
      rounded_natCast ((hblank.trans hsmall).trans (by norm_num))]
    have hsmall' : (cut : ℚ) ≤ 2 ^ 45 := by exact_mod_cast hsmall.le
    have hproduct : cut * value snapShare ≤ cut * (7 / 10) :=
      mul_le_mul_of_nonneg_left hless hcut'
    have hmove := rounded_le_add (q := cut * value snapShare) (e := -7) (by norm_num)
      (mul_nonneg hcut' hnonneg) (by norm_num; linarith)
    norm_num at hmove
    linarith
  · have hnear' : (cut : ℚ) ≤ blank + 1 + 1000000 := by
      exact_mod_cast hnear.resolve_left (by omega)
    have hlarge' : (35184372088832 : ℚ) ≤ cut := by exact_mod_cast hlarge
    have hhuge : (cut : ℚ) ≤ 2 ^ 64 := by exact_mod_cast hcut.le
    have hblank' : (blank : ℚ) ≤ cut := by exact_mod_cast hblank.le
    have hwhole := rounded_le_add (q := cut) (e := 12) (by norm_num) hcut' (by norm_num; linarith)
    have hblankMove := sub_le_rounded (q := blank) (e := 12) (by norm_num) (Nat.cast_nonneg _)
      (by norm_num; linarith)
    have hproduct : rounded cut * value snapShare ≤ rounded cut * (7 / 10) :=
      mul_le_mul_of_nonneg_left hless (rounded_nonneg hcut')
    have hmove := rounded_le_add (q := rounded cut * value snapShare) (e := 12) (by norm_num)
      (mul_nonneg (rounded_nonneg hcut') hnonneg) (by norm_num at hwhole ⊢; linarith)
    norm_num at hwhole hblankMove hmove
    linarith

end Near

/-! ## The halves -/

section Words

variable {cs : List Char} {cut : ℕ}

/-- A cut that can move back to a blank keeps the words, if the first piece is no longer than a text
may be. -/
theorem words_snap (hcut : cut < 2 ^ 64)
    (hroom : (trim (cs.take (snap cs cut))).length ≤ longestText) {i : ℕ} {c : Char}
    (hc : cs[i]? = some c) (hblank : isBlank c = true) (hpast : 7 * cut < 10 * i) (hi : i < cut) :
    words (cs.take (snap cs cut)) ++ words (cs.drop (snap cs cut)) = words cs := by
  have hbefore : (cs.take cut)[i]? = some c := by rw [List.getElem?_take_of_lt hi, hc]
  rcases lastBlank?_cases cs cut with
    ⟨-, hnone⟩ | ⟨front, last, after, hparts, hlast, hafter, hfound⟩
  · rw [hnone c (List.mem_of_getElem? hbefore)] at hblank
    contradiction
  have hlength := congrArg List.length hparts
  rw [List.length_take, List.length_append, List.length_cons] at hlength
  have hle : i ≤ front.length := by
    by_contra hgt
    rw [hparts, List.getElem?_append_right (by omega), List.getElem?_cons,
      if_neg (by omega)] at hbefore
    rw [hafter c (List.mem_of_getElem? hbefore)] at hblank
    contradiction
  have hat : cs[front.length]? = some last := by
    rw [← List.getElem?_take_of_lt (by omega : front.length < cut), hparts,
      List.getElem?_append_right le_rfl, Nat.sub_self, List.getElem?_cons_zero]
  by_cases hnear : Float.ofNat cut * snapShare < Float.ofNat front.length
  · have hsnap : snap cs cut = front.length := by
      rw [snap, hfound]
      exact if_pos hnear
    rw [hsnap]
    exact words_take_drop hat hlast
  · have hsnap : snap cs cut = cut := by
      rw [snap, hfound]
      exact if_neg hnear
    rw [hsnap] at hroom ⊢
    rcases le_or_gt cs.length cut with hall | hless
    · rw [List.take_of_length_le hall, List.drop_of_length_le hall]
      exact List.append_nil _
    · -- the first piece would not hold the word before the cut
      have hword := (length_le_trim_append hafter (front ++ [last])).trans_eq
        (congrArg (fun cs => (trim cs).length)
          (by rw [hparts, List.append_assoc, List.singleton_append] : _ = cs.take cut))
      exact absurd (past_of_near hcut (by omega) (by omega) (.inr (by omega))) hnear

end Words

/-- What the halves of a segment hold that is split at a point. -/
structure Halved (s : Segment) (point : Duration) (first second : Segment) : Prop where
  start_first : first.start = s.start
  stop_first : first.stop = point
  start_second : second.start = point
  stop_second : second.stop = s.stop
  voice : ∀ half ∈ [first, second], half.speaker = s.speaker ∧ half.language = s.language ∧
    half.confidence = s.confidence
  /-- No character but a blank is lost or doubled. -/
  filter_eq : (first.text.chars ++ second.text.chars).filter (!isBlank ·) =
    s.text.chars.filter (!isBlank ·)
  /-- The words stay whole if a half is too short for text, or with a blank past seven tenths of the
  characters that go with the share of the time. -/
  words_eq : (tooShortForSpeech s.start point = true ∨ tooShortForSpeech point s.stop = true ∨
      ∃ i c, s.text.chars[i]? = some c ∧ isBlank c = true ∧
        7 * s.proportionalCut point < 10 * i ∧ i < s.proportionalCut point) →
    words first.text.chars ++ words second.text.chars = words s.text.chars

section Halved

variable {s first second : Segment} {point : Duration}

/-- The texts of the halves. -/
theorem chars_of_split (h : s.split point = .ok (first, second)) :
    first.text.chars = s.head point ∧ second.text.chars = s.tail point ∧
      (s.head point).length ≤ longestText := by
  obtain ⟨-, headText, tailText, built, built', hhead, hbuilt, htail, hbuilt', rfl, rfl⟩ :=
    split_eq_ok_iff.1 h
  obtain ⟨rfl, hroom⟩ := ofContent_eq_ok_iff.1 hhead
  obtain ⟨rfl, -⟩ := ofContent_eq_ok_iff.1 htail
  obtain ⟨-, -, htext, -⟩ := build_eq_ok hbuilt
  obtain ⟨-, -, htext', -⟩ := build_eq_ok hbuilt'
  refine ⟨?_, ?_, ?_⟩
  · show built.text.chars = _
    rw [htext, chars, String.toList_ofList]
  · show built'.text.chars = _
    rw [htext', chars, String.toList_ofList]
  · rwa [Capped, charCount, String.length_ofList] at hroom

/-- The ends of the halves. -/
theorem ends_of_split (h : s.split point = .ok (first, second)) :
    (first.start = s.start ∧ first.stop = point) ∧ second.start = point ∧ second.stop = s.stop := by
  obtain ⟨-, headText, tailText, built, built', -, hbuilt, -, hbuilt', rfl, rfl⟩ :=
    split_eq_ok_iff.1 h
  obtain ⟨hstart, hstop, -, -⟩ := build_eq_ok hbuilt
  obtain ⟨hstart', hstop', -, -⟩ := build_eq_ok hbuilt'
  exact ⟨⟨hstart, hstop⟩, hstart', hstop'⟩

/-- The second half has the next number. -/
theorem sequence_of_split (h : s.split point = .ok (first, second)) :
    first.sequence = s.sequence ∧ second.sequence = nextSequence s.sequence := by
  obtain ⟨-, headText, tailText, built, built', -, hbuilt, -, hbuilt', rfl, rfl⟩ :=
    split_eq_ok_iff.1 h
  obtain ⟨-, -, -, hsequence⟩ := build_eq_ok hbuilt
  obtain ⟨-, -, -, hsequence'⟩ := build_eq_ok hbuilt'
  exact ⟨hsequence, hsequence'⟩

/-- Both halves keep what is known of the speaker. -/
theorem voice_of_split (h : s.split point = .ok (first, second)) : ∀ half ∈ [first, second],
    half.speaker = s.speaker ∧ half.language = s.language ∧ half.confidence = s.confidence := by
  obtain ⟨-, headText, tailText, built, built', -, hbuilt, -, hbuilt', rfl, rfl⟩ :=
    split_eq_ok_iff.1 h
  have hconfidence : built.confidence = s.confidence := confidence_of_build hbuilt
  have hconfidence' : built'.confidence = s.confidence := confidence_of_build hbuilt'
  rw [List.forall_mem_cons, List.forall_mem_singleton]
  exact ⟨⟨rfl, rfl, hconfidence⟩, rfl, rfl, hconfidence'⟩

/-- The words of a text that is not cut in the middle of a word. -/
theorem words_halves (hstart : s.start < point) (hstop : point < s.stop)
    (hroom : (s.head point).length ≤ longestText)
    (h : tooShortForSpeech s.start point = true ∨ tooShortForSpeech point s.stop = true ∨
      ∃ i c, s.text.chars[i]? = some c ∧ isBlank c = true ∧
        7 * s.proportionalCut point < 10 * i ∧ i < s.proportionalCut point) :
    words (s.head point) ++ words (s.tail point) = words s.text.chars := by
  rw [head] at hroom
  rw [head, tail, words_trim, words_trim]
  rw [cutAt_eq hstart hstop] at hroom ⊢
  -- if the first half is too short for speech, all of the text goes to the second
  cases hfirst : tooShortForSpeech s.start point with
  | true =>
    rw [if_pos rfl, List.take_zero, List.drop_zero]
    exact List.nil_append _
  | false =>
    rw [hfirst] at h hroom
    rw [if_neg (by simp)] at hroom ⊢
    -- and the other way round
    cases hsecond : tooShortForSpeech point s.stop with
    | true =>
      have hlength : s.text.charCount = s.text.chars.length := String.length_toList.symm
      rw [if_pos rfl, hlength, List.take_length, List.drop_length]
      exact List.append_nil _
    | false =>
      rw [hsecond] at h hroom
      rw [if_neg (by simp)] at hroom ⊢
      obtain ⟨i, c, hc, hblank, hpast, hi⟩ := (h.resolve_left (by simp)).resolve_left (by simp)
      exact words_snap (UInt64.toNat_lt _) hroom hc hblank hpast hi

/-- A split keeps all that there is to keep. -/
theorem halved_split (h : s.split point = .ok (first, second)) : Halved s point first second := by
  obtain ⟨⟨hstart, hstop⟩, -⟩ := split_eq_ok_iff.1 h
  obtain ⟨⟨hstart_first, hstop_first⟩, hstart_second, hstop_second⟩ := ends_of_split h
  obtain ⟨hfirst, hsecond, hroom⟩ := chars_of_split h
  refine ⟨hstart_first, hstop_first, hstart_second, hstop_second, voice_of_split h, ?_, ?_⟩
  · rw [hfirst, hsecond, head, tail, List.filter_append, filter_trim, filter_trim,
      ← List.filter_append, List.take_append_drop]
  · rw [hfirst, hsecond]
    exact words_halves hstart hstop hroom

theorem halved_twoWords : ∃ first second, twoWords.split pastBlank = .ok (first, second) ∧
    Halved twoWords pastBlank first second := by
  have hsome : (twoWords.split pastBlank).isOk = true := by decide +kernel
  cases hsplit : twoWords.split pastBlank with
  | ok halves => exact ⟨halves.1, halves.2, rfl, halved_split hsplit⟩
  | error refusal =>
    rw [hsplit] at hsome
    contradiction

/-- One word in a fifth of a second. -/
def oneWord : Segment where
  id := "segment_1"
  start := .zero
  stop := ⟨0.2, by decide +kernel, by decide +kernel⟩
  text := ⟨"abcdefgh", true⟩
  confidence := .certain
  sequence := 1
  speaker := none
  language := none
  start_lt_stop := by decide +kernel
  blank_of_short := by decide +kernel

/-- A point that leaves less than a tenth of a second before it, though by less than the slack. -/
def withinSlack : Duration := ⟨0.0999999995, by decide +kernel, by decide +kernel⟩

/-- A half that is shorter than a tenth of a second by less than the slack gets its share of the
text. -/
theorem words_ne_of_withinSlack : ∃ first second, oneWord.split withinSlack = .ok (first, second) ∧
    (first.stop - first.start).seconds < shortestSpeech ∧
    words first.text.chars ++ words second.text.chars ≠ words oneWord.text.chars := by
  have hsome : (oneWord.split withinSlack).isOk = true := by decide +kernel
  cases hsplit : oneWord.split withinSlack with
  | error refusal =>
    rw [hsplit] at hsome
    contradiction
  | ok halves =>
    -- the one word is cut in two where no blank is near
    have hhead : oneWord.head withinSlack = "abc".toList := by decide +kernel
    have htail : oneWord.tail withinSlack = "defgh".toList := by decide +kernel
    obtain ⟨hfirst, hsecond, -⟩ := chars_of_split hsplit
    obtain ⟨⟨hstart, hstop⟩, -⟩ := ends_of_split hsplit
    refine ⟨halves.1, halves.2, rfl, ?_, ?_⟩
    · rw [hstart, hstop]
      decide +kernel
    · rw [hfirst, hsecond, hhead, htail]
      decide +kernel

end Halved

end SpeechTranscript.Segment
