import SpeechTranscript.Proofs.Language.Tag

/-!
# The spelling of a language

A language is written in one spelling, which is a tag for the same language again. So tags of one
language are told apart by the separator and by case at the most.

* `Names.code`, `Names.canonical`: the code of a language names it, in the one spelling.
* `eq_iff_sameTag`: tags of one language.
* `tagged_ofCode`: all this of any code.
-/

namespace SpeechTranscript.Language

/-! ## One spelling -/

section Spelling

variable {cs ds primary region : List Char} {language other : Language}

theorem length_cased (region : List Char) : (cased region).length = region.length := by
  unfold cased
  split
  · exact List.length_map _
  · rfl

/-- A region is kept as it is, up to the case of two characters. -/
theorem sameLetters_cased (region : List Char) : SameLetters region (cased region) := by
  unfold cased
  split
  · exact sameLetters_upper region
  · rfl

/-- A region that has its case already keeps it. -/
theorem cased_cased (region : List Char) : cased (cased region) = cased region := by
  by_cases h : region.length = 2
  · have hlength : (cased region).length = 2 := (length_cased region).trans h
    rw [cased, if_pos hlength, cased, if_pos h, List.map_map]
    exact List.map_congr_left fun c _ => Char.toUpper_toUpper_eq_toUpper c
  · rw [cased, if_neg (by rwa [length_cased])]

theorem toList_code_tag (primary region : List Char) :
    (code (.tag (String.ofList primary) (some (String.ofList region)))).toList =
      primary ++ '-' :: region := by
  have hhyphen : "-".toList = ['-'] := by decide
  rw [Language.code, String.toList_append, String.toList_append, hhyphen, String.toList_ofList,
    String.toList_ofList, List.append_assoc, List.singleton_append]

/-- The code of a language is a tag for it. -/
theorem Names.code (h : Names cs language) : Names language.code.toList language := by
  cases h with
  | auto same => exact .auto rfl
  | bare hprimary =>
    have hkept : Names (lowered cs) _ := .bare ((sameLetters_lowered cs).isPrimary hprimary)
    rw [lowered_lowered] at hkept
    rwa [Language.code, String.toList_ofList]
  | @regional primary region mark hprimary hmark hregion =>
    have hkept : Names (lowered primary ++ '-' :: cased region) _ :=
      .regional ((sameLetters_lowered _).isPrimary hprimary) (List.mem_cons_self ..)
        ((sameLetters_cased _).isRegion hregion)
    rw [lowered_lowered, cased_cased] at hkept
    rwa [toList_code_tag]

/-- The spelling that a language is kept in: a primary part in lower case, and after a hyphen a
region, in upper case if it is of two characters. -/
structure Canonical (language : Language) : Prop where
  primary_eq : language.primary.toList = language.code.toList.takeWhile (· ≠ '-')
  lower : ∀ c ∈ language.primary.toList, c.isLower = true
  code_eq : language.code = language.primary ∨
    ∃ region, language.code = language.primary ++ "-" ++ region ∧ IsRegion region.toList ∧
      (region.length = 2 → ∀ c ∈ region.toList, c.isUpper = true ∨ c.isDigit = true)

theorem ne_hyphen_of_isLower (h : ∀ c ∈ cs, c.isLower = true) :
    ∀ c ∈ cs, decide (c ≠ '-') = true := fun c hc => by
  refine decide_eq_true fun heq => ?_
  have hlower := h c hc
  rw [heq] at hlower
  contradiction

/-- Letters in lower case stand before the first hyphen. -/
theorem takeWhile_hyphen (h : ∀ c ∈ cs, c.isLower = true) (rest : List Char) :
    (cs ++ '-' :: rest).takeWhile (· ≠ '-') = cs := by
  rw [List.takeWhile_append_of_pos (ne_hyphen_of_isLower h), List.takeWhile_cons_of_neg (by simp),
    List.append_nil]

theorem isLower_lowered (h : IsPrimary primary) : ∀ c ∈ lowered primary, c.isLower = true := by
  intro c hc
  obtain ⟨d, hd, rfl⟩ := List.mem_map.1 hc
  rw [Char.isLower_toLower_eq_isAlpha]
  exact h.2 d hd

/-- Two characters of a region are put into upper case. -/
theorem isUpper_cased (h : IsRegion region) (htwo : region.length = 2) :
    ∀ c ∈ cased region, c.isUpper = true ∨ c.isDigit = true := by
  intro c hc
  rw [cased, if_pos htwo] at hc
  obtain ⟨d, hd, rfl⟩ := List.mem_map.1 hc
  have hd' := h.2.2 d hd
  rw [Char.isAlphanum, Bool.or_eq_true] at hd'
  rw [Char.isUpper_toUpper_eq_isAlpha]
  refine hd'.imp_right fun hdigit => ?_
  -- a digit has no other case
  have hsame : d.toUpper = d := Char.toUpper_eq_of_not_isLower fun hlower => by
    simp only [Char.isDigit, Char.isLower, Bool.and_eq_true, decide_eq_true_eq, ge_iff_le,
      UInt32.le_iff_toNat_le] at hdigit hlower
    simp at hdigit hlower
    omega
  rwa [hsame]

/-- What a text names is in canonical form. -/
theorem Names.canonical (h : Names cs language) : Canonical language := by
  cases h with
  | auto same =>
    have hletters : "auto".toList.all Char.isLower = true := by decide
    exact ⟨by decide +kernel, List.all_eq_true.1 hletters, .inl rfl⟩
  | bare hprimary =>
    have hlower := isLower_lowered hprimary
    rw [← String.toList_ofList (l := lowered cs)] at hlower
    exact ⟨(List.takeWhile_eq_self_iff.2 (ne_hyphen_of_isLower hlower)).symm, hlower, .inl rfl⟩
  | @regional primary region mark hprimary hmark hregion =>
    have hlower := isLower_lowered hprimary
    -- the region starts behind the first hyphen of the code
    refine ⟨?_, ?_, .inr ⟨_, rfl, ?_, ?_⟩⟩
    · rw [toList_code_tag, takeWhile_hyphen hlower]
      exact String.toList_ofList
    · rwa [Language.primary, String.toList_ofList]
    · rw [String.toList_ofList]
      exact (sameLetters_cased _).isRegion hregion
    · rw [String.length_ofList, String.toList_ofList, length_cased]
      exact isUpper_cased hregion

end Spelling

/-! ## Tags of one language -/

section Same

variable {cs ds : List Char} {language other : Language}

/-- Tags that differ in no more than that name the same language. -/
theorem SameTag.names (hsame : SameTag cs ds) (h : Names cs language) : Names ds language := by
  cases hsame with
  | bare plain same =>
    cases h with
    | auto hauto => exact .auto (same.symm.trans hauto)
    | bare hprimary =>
      have hlower : lowered cs = lowered ds := same
      rw [hlower]
      exact .bare (same.isPrimary hprimary)
    | @regional primary region mark hprimary hmark hregion =>
      exact absurd hmark (plain mark (by simp))
  | @regional primary primary' region region' mark mark' plain same hmark hmark' hregion' =>
    generalize hcs : primary ++ mark :: region = cs at h
    cases h with
    | auto hauto =>
      have halpha := isAlpha_of_auto hauto mark (by rw [← hcs]; simp)
      exact absurd hmark (not_mem_marks (isAlphanum_of_isAlpha halpha))
    | bare hprimary =>
      have halpha := hprimary.isAlphanum mark (by rw [← hcs]; simp)
      exact absurd hmark (not_mem_marks halpha)
    | @regional first second between hprimary hbetween hregion =>
      -- both are cut at the first separator
      have hcut := congrArg (Text.splitWhere isSeparator) hcs
      rw [Text.splitWhere_append_of_forall (plain_iff.2 plain) (isSeparator_iff.2 hmark),
        Text.splitWhere_append_of_forall hprimary.plain (isSeparator_iff.2 hbetween)] at hcut
      obtain rfl : primary = first := List.head_eq_of_cons_eq hcut
      obtain ⟨rfl, rfl⟩ := List.cons.inj (List.append_cancel_left hcs)
      have hcased : cased region = cased region' ∧ IsRegion region' := by
        rcases hregion' with rfl | ⟨htwo, hletters⟩
        · exact ⟨rfl, hregion⟩
        · refine ⟨?_, hletters.isRegion hregion⟩
          rw [cased, if_pos htwo, cased, if_pos (hletters.length_eq.symm.trans htwo),
            hletters.map_toUpper]
      have hlower : lowered primary = lowered primary' := same
      rw [hlower, hcased.1]
      exact .regional (same.isPrimary hprimary) hmark' hcased.2

/-- Regions that are kept as the same one. -/
theorem eq_or_sameLetters_of_cased_eq {region region' : List Char}
    (h : cased region = cased region') :
    region = region' ∨ region.length = 2 ∧ SameLetters region region' := by
  have hlength := congrArg List.length h
  rw [length_cased, length_cased] at hlength
  by_cases htwo : region.length = 2
  · refine .inr ⟨htwo, (sameLetters_cased region).trans ?_⟩
    rw [h]
    exact (sameLetters_cased region').symm
  · rw [cased, if_neg htwo, cased, if_neg (hlength ▸ htwo)] at h
    exact .inl h

/-- Tags name the same language exactly if they differ in no more than that. -/
theorem eq_iff_sameTag (h : Names cs language) (h' : Names ds other) :
    language = other ↔ SameTag cs ds := by
  constructor
  · intro heq
    cases h with
    | auto same =>
      cases h' with
      | auto same' =>
        exact .bare (fun c hc => not_mem_marks (isAlphanum_of_isAlpha (isAlpha_of_auto same c hc)))
          (same.trans same'.symm)
      | bare => contradiction
      | regional => contradiction
    | bare hprimary =>
      cases h' with
      | auto => contradiction
      | bare hprimary' =>
        injection heq with hlower
        exact .bare (plain_iff.1 hprimary.plain) (String.ofList_injective hlower)
      | regional => injection heq; contradiction
    | regional hprimary hmark hregion =>
      cases h' with
      | auto => contradiction
      | bare => injection heq; contradiction
      | regional hprimary' hmark' hregion' =>
        -- both parts agree, each as far as its case counts
        injection heq with hlower hcased
        have hkept := String.ofList_injective (Option.some.inj hcased)
        exact .regional (plain_iff.1 hprimary.plain) (String.ofList_injective hlower) hmark hmark'
          (eq_or_sameLetters_of_cased_eq hkept)
  · exact fun hsame => (hsame.names h).unique h'

/-- Exactly the tags can be read. What is read is written in one spelling and read again from that,
and tags of the same language are told apart by no more than blanks, the separator and case. -/
theorem tagged_ofCode (s : String) :
    ((∃ language, ofCode s = .ok language) ↔ IsTag (Text.trim s.toList)) ∧
      ∀ language, ofCode s = .ok language →
        Canonical language ∧ ofCode language.code = .ok language ∧
          ∀ t other, ofCode t = .ok other →
            (language = other ↔ SameTag (Text.trim s.toList) (Text.trim t.toList)) := by
  simp only [ofCode_eq_ok_iff, exists_names_iff, true_and]
  intro language h
  refine ⟨h.canonical, ?_, fun t other h' => eq_iff_sameTag h h'⟩
  rw [h.code.trimmed.trim_eq]
  exact h.code

/-- A region of two characters is put into upper case, one of four is kept. -/
theorem tagged_samples :
    ofCode "\u00a0PT_b1 " = .ok (.tag "pt" (some "B1")) ∧
      ofCode "pt-B1" = .ok (.tag "pt" (some "B1")) ∧
      SameTag (Text.trim "\u00a0PT_b1 ".toList) (Text.trim "Pt-B1".toList) ∧
      ofCode "zh-Hant" = .ok (.tag "zh" (some "Hant")) ∧
      ¬ SameTag (Text.trim "zh-Hant".toList) (Text.trim "zh-HANT".toList) ∧
      ¬ IsTag (Text.trim "en-US-".toList) := by
  have hread : ofCode "\u00a0PT_b1 " = .ok (.tag "pt" (some "B1")) := by decide +kernel
  have hread' : ofCode "zh-Hant" = .ok (.tag "zh" (some "Hant")) := by decide +kernel
  obtain ⟨-, hagain, hsame⟩ := (tagged_ofCode "\u00a0PT_b1 ").2 _ hread
  obtain ⟨-, -, hother⟩ := (tagged_ofCode "zh-Hant").2 _ hread'
  refine ⟨hread, hagain, (hsame "Pt-B1" _ (by decide +kernel)).1 rfl, hread', fun h => ?_,
    fun h => ?_⟩
  · have heq := (hother "zh-HANT" (.tag "zh" (some "HANT")) (by decide +kernel)).2 h
    exact absurd heq (by decide +kernel)
  · obtain ⟨language, hlanguage⟩ := (tagged_ofCode "en-US-").1.2 h
    have hnone : read? "en-US-" = none := by decide +kernel
    rw [ofCode, hnone] at hlanguage
    contradiction

end Same

end SpeechTranscript.Language
