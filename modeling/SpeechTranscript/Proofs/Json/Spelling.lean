import SpeechTranscript.Proofs.Json.Text

/-!
# Spelled strings

Between the quotes of a string stand characters and escapes, in any of the forms that JSON has. Most
spellings have a meaning; only where half of a surrogate pair stands without the other half there is
none. The reader gives that meaning, and fails where there is none.

* `Yields`: what a reader makes of a text, be it a value or a fault.
* `decode?`: the characters that a spelling stands for.
* `yields_string`: a spelled string after its opening quote.
-/

namespace SpeechTranscript.Json

/-! ## What a reader makes of a text -/

/-- A reader gives a value and leaves a rest, or fails if there is no value. -/
def Yields {α : Type} {cs : List Char} (result : Except Fault (Parsed α cs)) (outcome : Option α)
    (rest : List Char) : Prop :=
  match outcome with
  | some value => Reads result value rest
  | none => ∃ fault, result = .error fault

section Yields

variable {α β : Type} {cs cs' rest rest' : List Char} {result : Except Fault (Parsed α cs)}
  {outcome : Option α} {f : Parsed α cs → Except Fault (Parsed β cs')}

/-- What is read after a value. -/
theorem Yields.bind {g : α → Option β} (h : Yields result outcome rest)
    (hf : ∀ value shorter, Yields (f ⟨value, rest, shorter⟩) (g value) rest') :
    Yields (result >>= f) (outcome.bind g) rest' := by
  cases outcome with
  | some value =>
    obtain ⟨shorter, hresult⟩ := h
    rw [hresult, ok_bind]
    exact hf value shorter
  | none =>
    obtain ⟨fault, hresult⟩ := h
    exact ⟨fault, by rw [hresult]; rfl⟩

/-- What is made of a value, with nothing more read. -/
theorem Yields.map {g : α → β} (h : Yields result outcome rest)
    (hf : ∀ value shorter, Reads (f ⟨value, rest, shorter⟩) (g value) rest) :
    Yields (result >>= f) (outcome.map g) rest := by
  rw [Option.map_eq_bind]
  exact h.bind hf

/-- It makes no difference that a text has more in front. -/
theorem Yields.within (h : Yields result outcome rest) (hle : cs.length ≤ cs'.length) :
    Yields (result >>= fun p => .ok (p.within hle)) outcome rest := by
  rw [← Option.map_id_apply (x := outcome)]
  exact h.map fun value shorter => ⟨_, rfl⟩

end Yields

/-! ## Spellings -/

/-- What stands for a character between the quotes of a string. -/
inductive Mark where
  | plain (c : Char)
  /-- A backslash with a letter, and what it stands for. -/
  | escaped (letter c : Char)
  /-- A unit of a character by its four hexadecimal digits, and their value. -/
  | unit (digits : List Char) (n : ℕ)

namespace Mark

def text : Mark → List Char
  | plain c => [c]
  | escaped letter _ => ['\\', letter]
  | unit digits _ => '\\' :: 'u' :: digits

/-- What may stand in a string, with the value that it has. -/
def Valid : Mark → Prop
  | plain c => c ≠ '"' ∧ c ≠ '\\' ∧ ¬ c.toNat < 0x20
  | escaped letter c => escapedChar? letter = some c
  | unit digits n => fourHex? digits = some (n, [])

instance : DecidablePred Valid
  | plain c => inferInstanceAs (Decidable (c ≠ '"' ∧ c ≠ '\\' ∧ ¬ c.toNat < 0x20))
  | escaped letter c => inferInstanceAs (Decidable (escapedChar? letter = some c))
  | unit digits n => inferInstanceAs (Decidable (fourHex? digits = some (n, [])))

end Mark

/-- The text between the quotes. -/
def spelled (marks : List Mark) : List Char := marks.flatMap Mark.text

/-- The characters that marks stand for. The two units of a surrogate pair stand for one; there is
none for a single one of them. -/
def decode? : List Mark → Option (List Char)
  | [] => some []
  | .plain c :: marks => (decode? marks).map (c :: ·)
  | .escaped _ c :: marks => (decode? marks).map (c :: ·)
  | .unit _ n :: marks =>
    if isTrailing n then none
    else if isLeading n then
      match marks with
      | .unit _ m :: more =>
        if isTrailing m then (decode? more).map (pairChar n m :: ·) else none
      | _ => none
    else (decode? marks).map (Char.ofNat n :: ·)

/-! ## Reading escapes -/

section Escapes

variable {digits digits' cs : List Char} {n m : ℕ}

/-- No unit is the first half and the second. -/
theorem not_isLeading (h : isTrailing n = true) : isLeading n = false := by
  simp only [isLeading, isTrailing, Bool.and_eq_true, decide_eq_true_eq] at h ⊢
  rw [Bool.and_eq_false_iff, decide_eq_false_iff_not, decide_eq_false_iff_not]
  omega

/-- Four digits are read whatever follows them. -/
theorem fourHex?_append (h : fourHex? digits = some (n, [])) (cs : List Char) :
    fourHex? (digits ++ cs) = some (n, cs) := by
  unfold fourHex? at h
  split at h
  · rename_i a b c d rest
    simp only [bind, Option.bind_eq_some_iff, pure, Option.some.injEq, Prod.mk.injEq] at h
    obtain ⟨w, ha, x, hb, y, hc, z, hd, hn, rfl⟩ := h
    simp [fourHex?, ha, hb, hc, hd, hn]
  · cases h

/-- The reader of four digits leaves what follows them. -/
theorem reads_hex (h : fourHex? digits = some (n, [])) (cs : List Char) :
    Reads (readHex (digits ++ cs)) n cs := by
  have hhere := fourHex?_append h cs
  unfold readHex
  split
  · rename_i n' rest heq
    rw [hhere] at heq
    cases heq
    exact ⟨_, rfl⟩
  · rename_i hnone
    rw [hhere] at hnone
    cases hnone

/-- A unit that is no first half stands for its character, unless it is a second half. -/
theorem yields_unit (h : fourHex? digits = some (n, [])) (hleading : isLeading n = false)
    (cs : List Char) : Yields (readEscape ('u' :: (digits ++ cs)))
      (if isTrailing n then none else some (Char.ofNat n)) cs := by
  obtain ⟨shorter, hhex⟩ := reads_hex h cs
  rw [readEscape, readUnicode, hhex, ok_bind]
  dsimp only
  cases hn : isTrailing n with
  | true => exact ⟨_, rfl⟩
  | false =>
    rw [if_neg Bool.false_ne_true, hleading, if_neg Bool.false_ne_true]
    exact ⟨_, rfl⟩

/-- Where a second half has to follow, an escape by number gives it if it is one. -/
theorem yields_trailing (h : fourHex? digits = some (n, [])) (cs : List Char) :
    Yields (readTrailing ('\\' :: 'u' :: (digits ++ cs))) (if isTrailing n then some n else none)
      cs := by
  obtain ⟨shorter, hhex⟩ := reads_hex h cs
  rw [readTrailing, hhex, ok_bind]
  dsimp only
  cases isTrailing n with
  | true => exact ⟨_, rfl⟩
  | false => exact ⟨_, rfl⟩

/-- Anything but an escape by number is no second half. -/
theorem yields_no_trailing (h : ∀ more, cs ≠ '\\' :: 'u' :: more) :
    Yields (readTrailing cs) none cs := by
  unfold readTrailing
  split
  · exact ⟨_, rfl⟩
  · exact ⟨_, rfl⟩
  · exact absurd rfl (h _)
  · exact ⟨_, rfl⟩
  · exact ⟨_, rfl⟩

/-- The first half of a pair is read together with what follows it. -/
theorem yields_leading {outcome : Option ℕ} {rest : List Char}
    (h : fourHex? digits = some (n, [])) (hleading : isLeading n = true)
    (hnext : Yields (readTrailing cs) outcome rest) :
    Yields (readEscape ('u' :: (digits ++ cs))) (outcome.map (pairChar n)) rest := by
  have htrailing : isTrailing n = false := by
    rw [Bool.eq_false_iff]
    intro htrailing
    rw [not_isLeading htrailing] at hleading
    cases hleading
  obtain ⟨shorter, hhex⟩ := reads_hex h cs
  rw [readEscape, readUnicode, hhex, ok_bind]
  dsimp only
  rw [htrailing, if_neg Bool.false_ne_true, hleading, if_pos rfl]
  cases outcome with
  | some second =>
    obtain ⟨shorter', hsecond⟩ := hnext
    rw [hsecond, ok_bind]
    show Reads _ (pairChar n second) rest
    generalize pairChar n second = c
    exact ⟨_, rfl⟩
  | none =>
    obtain ⟨fault, hsecond⟩ := hnext
    rw [hsecond]
    exact ⟨fault, rfl⟩

/-- A letter after a backslash stands for one character. -/
theorem reads_letter {letter c : Char} (h : escapedChar? letter = some c) (cs : List Char) :
    Reads (readEscape (letter :: cs)) c cs := by
  have hunit : letter ≠ 'u' := by
    rintro rfl
    cases h
  rw [readEscape, h]
  · exact ⟨_, rfl⟩
  · exact hunit

/-- What follows a mark that is no unit is no escape by number. -/
theorem not_unit_append {marks : List Mark} (hvalid : ∀ mark ∈ marks, mark.Valid)
    (hother : ∀ digits n more, marks ≠ .unit digits n :: more) (cs more : List Char) :
    spelled marks ++ '"' :: cs ≠ '\\' :: 'u' :: more := by
  intro heq
  cases marks with
  | nil => cases heq
  | cons mark marks =>
    have hmark := hvalid mark List.mem_cons_self
    cases mark with
    | plain c => exact hmark.2.1 (List.cons.inj heq).1
    -- an escape with the letter `u` would be one by number
    | escaped letter c =>
      obtain rfl : letter = 'u' := (List.cons.inj (List.cons.inj heq).2).1
      cases (hmark : escapedChar? 'u' = some c)
    | unit digits n => exact hother digits n marks rfl

end Escapes

/-! ## Reading strings -/

section Strings

variable {whole done cs more rest : List Char} {marks : List Mark}

/-- The character that an escape stands for is pushed, and reading goes on behind the escape. -/
theorem readStringFrom_escaped (done : List Char) {c : Char}
    (hread : Reads (readEscape more) c rest)
    (h : ('\\' :: more).length ≤ whole.length) :
    ∃ h', readStringFrom done ('\\' :: more) h = readStringFrom (c :: done) rest h' := by
  obtain ⟨shorter, hread⟩ := hread
  refine ⟨by rw [List.length_cons] at h; omega, ?_⟩
  conv_lhs => rw [readStringFrom]
  split
  · rename_i fault herror
    rw [hread] at herror
    cases herror
  · rename_i escaped hok
    rw [hread] at hok
    cases hok
    rfl

/-- An escape that has no meaning stops the reading. -/
theorem readStringFrom_fault {fault : Fault} (hread : readEscape more = .error fault)
    (h : ('\\' :: more).length ≤ whole.length) :
    readStringFrom done ('\\' :: more) h = .error fault := by
  rw [readStringFrom]
  split
  · rename_i fault' herror
    rw [hread] at herror
    cases herror
    rfl
  · rename_i escaped hok
    rw [hread] at hok
    cases hok

/-- A character that was read is the next one of the string. -/
theorem outcome_push (c : Char) (outcome : Option (List Char)) :
    ((outcome.map (c :: ·)).map fun s => String.ofList (done.reverse ++ s)) =
      outcome.map fun s => String.ofList ((c :: done).reverse ++ s) := by
  cases outcome <;> simp

theorem spelled_nil : spelled [] = [] := rfl

theorem spelled_cons (mark : Mark) (marks : List Mark) :
    spelled (mark :: marks) = mark.text ++ spelled marks :=
  List.flatMap_cons

/-- A spelled string is read mark by mark, up to the closing quote. -/
theorem yields_stringFrom (hvalid : ∀ mark ∈ marks, mark.Valid)
    (h : (spelled marks ++ '"' :: cs).length ≤ whole.length) :
    Yields (readStringFrom done (spelled marks ++ '"' :: cs) h)
      ((decode? marks).map fun s => String.ofList (done.reverse ++ s)) cs := by
  fun_induction decode? marks generalizing done with
  | case1 =>
    simp only [spelled_nil, List.nil_append] at h ⊢
    rw [readStringFrom]
    exact ⟨h, by simp⟩
  -- a plain character is none of those that end a string, escape or control
  | case2 c marks ih =>
    obtain ⟨⟨hquote, hbackslash, hcontrol⟩, hvalid⟩ := List.forall_mem_cons.1 hvalid
    simp only [spelled_cons, Mark.text, List.cons_append, List.nil_append] at h ⊢
    rw [readStringFrom, if_neg hcontrol, outcome_push]
    · exact ih hvalid _
    · exact hquote
    · exact hbackslash
  | case3 letter c marks ih =>
    obtain ⟨hletter, hvalid⟩ := List.forall_mem_cons.1 hvalid
    simp only [spelled_cons, Mark.text, List.cons_append, List.nil_append] at h ⊢
    obtain ⟨h', heq⟩ := readStringFrom_escaped done (reads_letter hletter _) h
    rw [heq, outcome_push]
    exact ih hvalid h'
  -- a second half alone has no meaning
  | case4 digits n marks htrailing =>
    obtain ⟨hdigits, -⟩ := List.forall_mem_cons.1 hvalid
    simp only [spelled_cons, Mark.text, List.cons_append, List.append_assoc] at h ⊢
    have hunit := yields_unit hdigits (not_isLeading htrailing) (spelled marks ++ '"' :: cs)
    rw [if_pos htrailing] at hunit
    obtain ⟨fault, hunit⟩ := hunit
    exact ⟨fault, readStringFrom_fault hunit h⟩
  -- the two halves of a pair, read in one go
  | case5 digits n _ hleading digits' m marks htrailing ih =>
    obtain ⟨hdigits, hvalid⟩ := List.forall_mem_cons.1 hvalid
    obtain ⟨hdigits', hvalid⟩ := List.forall_mem_cons.1 hvalid
    simp only [spelled_cons, Mark.text, List.cons_append, List.append_assoc] at h ⊢
    have hsecond := yields_trailing hdigits' (spelled marks ++ '"' :: cs)
    rw [if_pos htrailing] at hsecond
    obtain ⟨h', heq⟩ := readStringFrom_escaped done
      (yields_leading hdigits hleading hsecond) h
    rw [heq, outcome_push]
    exact ih hvalid h'
  -- a first half with a number after it that is no second half
  | case6 digits n _ hleading digits' m marks htrailing =>
    obtain ⟨hdigits, hvalid⟩ := List.forall_mem_cons.1 hvalid
    obtain ⟨hdigits', -⟩ := List.forall_mem_cons.1 hvalid
    simp only [spelled_cons, Mark.text, List.cons_append, List.append_assoc] at h ⊢
    have hsecond := yields_trailing hdigits' (spelled marks ++ '"' :: cs)
    rw [if_neg htrailing] at hsecond
    obtain ⟨fault, hunit⟩ := yields_leading hdigits hleading hsecond
    exact ⟨fault, readStringFrom_fault hunit h⟩
  -- a first half with no number after it
  | case7 digits n marks _ hleading hother =>
    obtain ⟨hdigits, hvalid⟩ := List.forall_mem_cons.1 hvalid
    simp only [spelled_cons, Mark.text, List.cons_append, List.append_assoc] at h ⊢
    obtain ⟨fault, hunit⟩ := yields_leading hdigits hleading
      (yields_no_trailing (not_unit_append hvalid hother cs))
    exact ⟨fault, readStringFrom_fault hunit h⟩
  | case8 digits n marks htrailing hleading ih =>
    obtain ⟨hdigits, hvalid⟩ := List.forall_mem_cons.1 hvalid
    simp only [spelled_cons, Mark.text, List.cons_append, List.append_assoc] at h ⊢
    have hunit := yields_unit hdigits (by simpa using hleading) (spelled marks ++ '"' :: cs)
    rw [if_neg htrailing] at hunit
    obtain ⟨h', heq⟩ := readStringFrom_escaped done hunit h
    rw [heq, outcome_push]
    exact ih hvalid h'

/-- A spelled string is read as what its spelling stands for, after its opening quote. -/
theorem yields_string (hvalid : ∀ mark ∈ marks, mark.Valid) (cs : List Char) :
    Yields (readString (spelled marks ++ '"' :: cs)) ((decode? marks).map String.ofList) cs :=
  yields_stringFrom hvalid le_rfl

end Strings

end SpeechTranscript.Json
