import SpeechTranscript.Language
import SpeechTranscript.Proofs.Text.Pieces

/-!
# Language tags

Which tags name a language. A tag is told by its parts: what stands before the only separator, and
what stands after it. Blanks around a tag do not count.

* `read?_eq_some_iff`, `ofCode_eq_ok_iff`: the language that a code is read as.
* `Names.unique`: a tag names one language only.
-/

namespace SpeechTranscript

namespace Text

/-- A text without blanks has none around it. -/
theorem trimmed_of_forall {cs : List Char} (h : ∀ c ∈ cs, isBlank c = false) : Trimmed cs := by
  have hkept : ∀ {ds : List Char}, (∀ d ∈ ds, isBlank d = false) → ds.dropWhile isBlank = ds :=
    fun hds => List.dropWhile_eq_self_iff.2 fun hpos => by
      rw [hds _ (List.getElem_mem hpos)]
      exact Bool.false_ne_true
  refine ⟨hkept h, ?_⟩
  rw [trimEnd, hkept fun c hc => h c (List.mem_reverse.1 hc), List.reverse_reverse]

/-- Letters and digits are no blanks. -/
theorem isBlank_of_isAlphanum {c : Char} (h : c.isAlphanum = true) : isBlank c = false := by
  have hcode : ((65 ≤ c.toNat ∧ c.toNat ≤ 90) ∨ (97 ≤ c.toNat ∧ c.toNat ≤ 122)) ∨
      (48 ≤ c.toNat ∧ c.toNat ≤ 57) := by
    simpa [Char.isAlphanum, Char.isAlpha, Char.isUpper, Char.isLower, Char.isDigit,
      UInt32.le_iff_toNat_le] using h
  simp only [isBlank, Bool.or_eq_false_iff, Bool.and_eq_false_iff, decide_eq_false_iff_not,
    beq_eq_false_iff_ne]
  omega

end Text

namespace Language

/-! ## Tags -/

/-- Told apart by the case of ASCII letters at the most. -/
def SameLetters (cs ds : List Char) : Prop := cs.map Char.toLower = ds.map Char.toLower

/-- Two or three ASCII letters. -/
def IsPrimary (cs : List Char) : Prop :=
  (cs.length = 2 ∨ cs.length = 3) ∧ ∀ c ∈ cs, c.isAlpha = true

/-- Two to four ASCII letters or digits. -/
def IsRegion (cs : List Char) : Prop :=
  2 ≤ cs.length ∧ cs.length ≤ 4 ∧ ∀ c ∈ cs, c.isAlphanum = true

/-- What can stand between the parts of a tag. -/
def marks : List Char := ['-', '_']

/-- The tags that name a language, or leave it to be found out. -/
inductive IsTag : List Char → Prop where
  | auto {cs : List Char} (same : SameLetters cs "auto".toList) : IsTag cs
  | bare {primary : List Char} (hprimary : IsPrimary primary) : IsTag primary
  | regional {primary region : List Char} {mark : Char} (hprimary : IsPrimary primary)
      (hmark : mark ∈ marks) (hregion : IsRegion region) : IsTag (primary ++ mark :: region)

/-- Tags of which one differs from the other by the separator, the case of the primary part and, if
there are two characters after the separator, the case of these. -/
inductive SameTag : List Char → List Char → Prop where
  | bare {primary primary' : List Char} (plain : ∀ c ∈ primary, c ∉ marks)
      (same : SameLetters primary primary') : SameTag primary primary'
  | regional {primary primary' region region' : List Char} {mark mark' : Char}
      (plain : ∀ c ∈ primary, c ∉ marks) (same : SameLetters primary primary')
      (hmark : mark ∈ marks) (hmark' : mark' ∈ marks)
      (hregion : region = region' ∨ region.length = 2 ∧ SameLetters region region') :
      SameTag (primary ++ mark :: region) (primary' ++ mark' :: region')

/-- A primary part as it is kept. -/
def lowered (primary : List Char) : List Char := primary.map Char.toLower

/-- A region as it is kept. -/
def cased (region : List Char) : List Char :=
  if region.length = 2 then region.map Char.toUpper else region

/-- The language that a tag names. -/
inductive Names : List Char → Language → Prop where
  | auto {cs : List Char} (same : SameLetters cs "auto".toList) : Names cs .auto
  | bare {primary : List Char} (hprimary : IsPrimary primary) :
      Names primary (.tag (String.ofList (lowered primary)) none)
  | regional {primary region : List Char} {mark : Char} (hprimary : IsPrimary primary)
      (hmark : mark ∈ marks) (hregion : IsRegion region) :
      Names (primary ++ mark :: region)
        (.tag (String.ofList (lowered primary)) (some (String.ofList (cased region))))

/-- The texts that name a language are the tags: each constructor of one has its counterpart in the
other. -/
theorem exists_names_iff {cs : List Char} : (∃ language, Names cs language) ↔ IsTag cs := by
  constructor
  · rintro ⟨language, h⟩
    cases h with
    | auto same => exact .auto same
    | bare hprimary => exact .bare hprimary
    | regional hprimary hmark hregion => exact .regional hprimary hmark hregion
  · intro h
    cases h with
    | auto same => exact ⟨_, .auto same⟩
    | bare hprimary => exact ⟨_, .bare hprimary⟩
    | regional hprimary hmark hregion => exact ⟨_, .regional hprimary hmark hregion⟩

/-! ## Letters -/

section Letters

variable {cs ds primary region : List Char} {c mark : Char}

theorem isSeparator_iff : isSeparator c = true ↔ c ∈ marks := by
  simp [isSeparator, marks]

theorem not_mem_marks (h : c.isAlphanum = true) : c ∉ marks := by
  simp only [marks, List.mem_cons, List.not_mem_nil, or_false]
  rintro (rfl | rfl) <;> contradiction

theorem isBlank_of_mem_marks (h : mark ∈ marks) : Text.isBlank mark = false := by
  simp only [marks, List.mem_cons, List.not_mem_nil, or_false] at h
  rcases h with rfl | rfl <;> rfl

theorem isAlphanum_of_isAlpha (h : c.isAlpha = true) : c.isAlphanum = true := by
  rw [Char.isAlphanum, h, Bool.true_or]

theorem SameLetters.length_eq (h : SameLetters cs ds) : cs.length = ds.length := by
  simpa using congrArg List.length h

/-- Each letter of one text is one of the other, up to case. -/
theorem SameLetters.exists_mem (h : SameLetters cs ds) (hc : c ∈ ds) :
    ∃ d ∈ cs, d.toLower = c.toLower := by
  have hlower : c.toLower ∈ ds.map Char.toLower := List.mem_map_of_mem hc
  rw [← h] at hlower
  exact List.mem_map.1 hlower

/-- If one of two such texts is made of letters, so is the other. -/
theorem SameLetters.isAlpha (h : SameLetters cs ds) (hcs : ∀ c ∈ cs, c.isAlpha = true) :
    ∀ c ∈ ds, c.isAlpha = true := by
  intro c hc
  obtain ⟨d, hd, heq⟩ := h.exists_mem hc
  rw [← Char.isAlpha_toLower_eq_isAlpha, ← heq, Char.isAlpha_toLower_eq_isAlpha]
  exact hcs d hd

/-- What is no letter has no case. -/
theorem SameLetters.isAlphanum (h : SameLetters cs ds) (hcs : ∀ c ∈ cs, c.isAlphanum = true) :
    ∀ c ∈ ds, c.isAlphanum = true := by
  intro c hc
  obtain ⟨d, hd, heq⟩ := h.exists_mem hc
  have hd' := hcs d hd
  by_cases halpha : c.isAlpha = true
  · exact isAlphanum_of_isAlpha halpha
  · -- no letter, so it is a digit, and digits have no other case
    have hother : ¬ d.isAlpha = true := by
      rwa [← Char.isAlpha_toLower_eq_isAlpha, heq, Char.isAlpha_toLower_eq_isAlpha]
    have hplain {a : Char} (ha : ¬ a.isAlpha = true) : a.toLower = a :=
      Char.toLower_eq_of_not_isUpper fun hupper => ha (by rw [Char.isAlpha, hupper, Bool.true_or])
    rw [hplain hother, hplain halpha] at heq
    rwa [← heq]

theorem lowered_lowered (cs : List Char) : lowered (lowered cs) = lowered cs := by
  rw [lowered, lowered, List.map_map]
  exact List.map_congr_left fun c _ => Char.toLower_toLower_eq_toLower c

theorem sameLetters_lowered (cs : List Char) : SameLetters cs (lowered cs) :=
  (lowered_lowered cs).symm

theorem sameLetters_upper (cs : List Char) : SameLetters cs (cs.map Char.toUpper) := by
  rw [SameLetters, List.map_map]
  exact List.map_congr_left fun c _ => (Char.toLower_toUpper_eq_toLower c).symm

/-- Texts that differ in case only have the same capital letters. -/
theorem SameLetters.map_toUpper (h : SameLetters cs ds) :
    cs.map Char.toUpper = ds.map Char.toUpper := by
  have hupper := congrArg (List.map Char.toUpper) h
  rw [List.map_map, List.map_map] at hupper
  have hcase : Char.toUpper ∘ Char.toLower = Char.toUpper :=
    funext Char.toUpper_toLower_eq_toUpper
  rwa [hcase] at hupper

theorem SameLetters.isPrimary (h : SameLetters cs ds) (hcs : IsPrimary cs) : IsPrimary ds := by
  rw [IsPrimary, ← h.length_eq]
  exact ⟨hcs.1, h.isAlpha hcs.2⟩

theorem SameLetters.isRegion (h : SameLetters cs ds) (hcs : IsRegion cs) : IsRegion ds := by
  rw [IsRegion, ← h.length_eq]
  exact ⟨hcs.1, hcs.2.1, h.isAlphanum hcs.2.2⟩

end Letters

/-! ## Reading -/

section Reading

variable {cs primary region : List Char} {language : Language} {code : String}

/-- The code for a language that is to be detected is read in any case. -/
theorem isAutoCode_iff : isAutoCode cs = true ↔ SameLetters cs "auto".toList := by
  have hcode : "auto".toList.map Char.toLower = autoCode.toList := by decide
  rw [isAutoCode, beq_iff_eq, SameLetters, hcode]

/-- A primary part is read in small letters, if it is one. -/
theorem readPrimary?_eq_some_iff {text : String} :
    readPrimary? cs = some text ↔ IsPrimary cs ∧ text = String.ofList (lowered cs) := by
  rw [readPrimary?]
  split
  · rename_i h
    simp only [Bool.and_eq_true, Bool.or_eq_true, beq_iff_eq, List.all_eq_true] at h
    rw [Option.some.injEq, eq_comm]
    exact (and_iff_right h).symm
  · rename_i h
    simp only [Bool.and_eq_true, Bool.or_eq_true, beq_iff_eq, List.all_eq_true] at h
    exact iff_of_false (by simp) fun hprimary => h hprimary.1

/-- A region is read in capitals if it has two characters, else as it is. -/
theorem readRegion?_eq_some_iff {text : String} :
    readRegion? cs = some text ↔ IsRegion cs ∧ text = String.ofList (cased cs) := by
  rw [readRegion?]
  simp only [beq_iff_eq]
  split
  · rename_i h
    simp only [Bool.and_eq_true, decide_eq_true_eq, List.all_eq_true, and_assoc] at h
    rw [Option.some.injEq, eq_comm]
    exact (and_iff_right h).symm
  · rename_i h
    simp only [Bool.and_eq_true, decide_eq_true_eq, List.all_eq_true, and_assoc] at h
    exact iff_of_false (by simp) fun hregion => h hregion.1

theorem plain_iff : (∀ c ∈ cs, isSeparator c = false) ↔ ∀ c ∈ cs, c ∉ marks :=
  forall₂_congr fun c _ => by rw [← isSeparator_iff, Bool.not_eq_true]

theorem IsPrimary.isAlphanum (h : IsPrimary cs) : ∀ c ∈ cs, c.isAlphanum = true := fun c hc =>
  isAlphanum_of_isAlpha (h.2 c hc)

/-- The parts of a tag hold no separator. -/
theorem IsPrimary.plain (h : IsPrimary cs) : ∀ c ∈ cs, isSeparator c = false :=
  plain_iff.2 fun c hc => not_mem_marks (h.isAlphanum c hc)

theorem IsRegion.plain (h : IsRegion cs) : ∀ c ∈ cs, isSeparator c = false :=
  plain_iff.2 fun c hc => not_mem_marks (h.2.2 c hc)

/-- The letters of `auto` are letters in any case. -/
theorem isAlpha_of_auto (h : SameLetters cs "auto".toList) : ∀ c ∈ cs, c.isAlpha = true := by
  have hletters : "auto".toList.all Char.isAlpha = true := by decide
  have hback : SameLetters "auto".toList cs := h.symm
  exact hback.isAlpha (List.all_eq_true.1 hletters)

/-- A tag is read as the language it names. The reader tries `auto` first and then cuts at the
separators, so each shape of a tag has to be kept from what is tried before it. -/
theorem Names.read?_eq (h : Names cs language) (hcode : Text.trim code.toList = cs) :
    read? code = some language := by
  rw [read?, hcode]
  cases h with
  | auto same => rw [if_pos (isAutoCode_iff.2 same)]
  | bare hprimary =>
    have hother : ¬ isAutoCode cs = true := fun hauto => by
      -- four letters are too many for a primary part
      have hlength := (isAutoCode_iff.1 hauto).length_eq
      have hshort := hprimary.1
      simp at hlength
      omega
    rw [if_neg hother, Text.splitWhere_of_forall hprimary.plain]
    dsimp only
    rw [readPrimary?_eq_some_iff.2 ⟨hprimary, rfl⟩, Option.map_some]
  | @regional primary region mark hprimary hmark hregion =>
    have hother : ¬ isAutoCode (primary ++ mark :: region) = true := fun hauto => by
      -- the separator is no letter of auto
      have halpha := isAlpha_of_auto (isAutoCode_iff.1 hauto) mark (by simp)
      exact not_mem_marks (isAlphanum_of_isAlpha halpha) hmark
    rw [if_neg hother, Text.splitWhere_eq_pair_iff.2
      ⟨mark, isSeparator_iff.2 hmark, rfl, hprimary.plain, hregion.plain⟩]
    dsimp only
    rw [readPrimary?_eq_some_iff.2 ⟨hprimary, rfl⟩, readRegion?_eq_some_iff.2 ⟨hregion, rfl⟩]
    rfl

/-- A code is read as the language that it names, blanks around it aside. -/
theorem read?_eq_some_iff :
    read? code = some language ↔ Names (Text.trim code.toList) language := by
  constructor
  · intro h
    rw [read?] at h
    generalize Text.trim code.toList = cs at h ⊢
    split at h
    · rename_i hauto
      cases h
      exact .auto (isAutoCode_iff.1 hauto)
    · split at h
      · rename_i piece hpieces
        -- one piece: no separator
        obtain ⟨rfl, -⟩ := Text.splitWhere_eq_singleton_iff.1 hpieces
        obtain ⟨text, htext, rfl⟩ := Option.map_eq_some_iff.1 h
        obtain ⟨hprimary, rfl⟩ := readPrimary?_eq_some_iff.1 htext
        exact .bare hprimary
      · rename_i front back hpieces
        -- two pieces: one separator, between a primary part and a region
        obtain ⟨mark, hmark, rfl, -, -⟩ := Text.splitWhere_eq_pair_iff.1 hpieces
        obtain ⟨text, htext, h⟩ := Option.bind_eq_some_iff.1 h
        obtain ⟨text', htext', h⟩ := Option.bind_eq_some_iff.1 h
        cases h
        obtain ⟨hprimary, rfl⟩ := readPrimary?_eq_some_iff.1 htext
        obtain ⟨hregion, rfl⟩ := readRegion?_eq_some_iff.1 htext'
        exact .regional hprimary (isSeparator_iff.1 hmark) hregion
      · contradiction
  · exact fun h => h.read?_eq rfl

/-- Checked construction accepts the codes that name a language, blanks around them aside, and no
others. -/
theorem ofCode_eq_ok_iff : ofCode code = .ok language ↔ Names (Text.trim code.toList) language := by
  rw [← read?_eq_some_iff, ofCode]
  cases read? code with
  | none => simp
  | some other => simp

/-- A tag has no blanks around it. -/
theorem Names.trimmed (h : Names cs language) : Text.Trimmed cs := by
  refine Text.trimmed_of_forall fun c hc => ?_
  cases h with
  | auto same =>
    exact Text.isBlank_of_isAlphanum (isAlphanum_of_isAlpha (isAlpha_of_auto same c hc))
  | bare hprimary => exact Text.isBlank_of_isAlphanum (hprimary.isAlphanum c hc)
  | @regional primary region mark hprimary hmark hregion =>
    rcases List.mem_append.1 hc with hc | hc
    · exact Text.isBlank_of_isAlphanum (hprimary.isAlphanum c hc)
    · rcases List.mem_cons.1 hc with rfl | hc
      · exact isBlank_of_mem_marks hmark
      · exact Text.isBlank_of_isAlphanum (hregion.2.2 c hc)

/-- A tag names one language only. -/
theorem Names.unique {other : Language} (h : Names cs language) (h' : Names cs other) :
    language = other := by
  have hcode : Text.trim (String.ofList cs).toList = cs := by
    rw [String.toList_ofList]
    exact h.trimmed.trim_eq
  have hread := h.read?_eq hcode
  rw [h'.read?_eq hcode] at hread
  exact (Option.some.inj hread).symm

end Reading

end Language

end SpeechTranscript
