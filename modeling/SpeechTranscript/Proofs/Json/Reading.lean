import SpeechTranscript.Proofs.Json.Form
import SpeechTranscript.Proofs.Json.Number
import SpeechTranscript.Proofs.Json.Text

/-!
# Values read back

Every text of a value that fits is read as that value. Scalars come first; arrays and objects are
followed item by item and member by member, with the reader of what is nested in them as a
parameter; and the reader of values is reached by induction on the depth that is left.

* `readsForms_readValue`: a value that fits is read from each of its texts.
* `read_compact`, `read_pretty`: what either writer writes is read back.
-/

namespace SpeechTranscript.Json

/-! ## Reading scalars -/

section Scalars

variable {nested : Option (Reader Json)} {cs more rest : List Char} {c : Char} {value : Json}

/-- The letters of a word are taken from a text that starts with them. -/
theorem takes_letters (word : List Char) (rest : List Char) :
    Takes (readLetters word (word ++ rest)) () rest := by
  induction word with
  | nil => exact ⟨le_rfl, rfl⟩
  | cons c word ih =>
    obtain ⟨le, h⟩ := ih
    rw [List.cons_append, readLetters, if_pos (beq_self_eq_true c), h, ok_bind]
    exact ⟨_, rfl⟩

/-- A word that stands for a value is read as that value. Its first letter has been looked at
before, so only the others are left here. -/
theorem reads_word {word : String} (shorter : (word.toList ++ rest).length < cs.length) :
    Reads (readWord word value shorter) value rest := by
  obtain ⟨le, h⟩ := takes_letters word.toList rest
  rw [readWord, h, ok_bind]
  exact ⟨_, rfl⟩

/-- What a reader of values does after the spaces. -/
theorem readValueWith_eq (nested : Option (Reader Json)) (h : skipSpaces cs = c :: more) :
    ∃ (shorter : more.length < cs.length) (le : (c :: more).length ≤ cs.length),
      readValueWith nested cs =
        if c == 'n' then readWord "ull" .null shorter
        else if c == 't' then readWord "rue" (.bool true) shorter
        else if c == 'f' then readWord "alse" (.bool false) shorter
        else if c == '-' then do
          let n ← readNumber true more
          return n.within (Nat.le_of_lt shorter)
        else if c.isDigit then do
          let n ← readNumber false (c :: more)
          return n.within le
        else if c == '"' then do
          let s ← readString more
          return ⟨.string s.value, s.rest, Nat.lt_trans s.shorter shorter⟩
        else if c == '[' || c == '\x7b' then
          match nested with
          | none => atNext .tooDeep (c :: more)
          | some item => do
            let p ← if c == '[' then readItems item more else readMembers item more
            return p.within (Nat.le_of_lt shorter)
        else atNext .missingValue (c :: more) := by
  refine ⟨length_lt_of_skipSpaces h, h ▸ length_skipSpaces_le cs, ?_⟩
  unfold readValueWith
  -- the reader looks at the first character behind the spaces, which is known
  split
  · rename_i hnone
    rw [h] at hnone
    cases hnone
  · rename_i c' more' hsome
    rw [h] at hsome
    cases hsome
    rfl

/-- After a minus the reader of values leaves everything to the reader of numbers. -/
theorem readValueWith_negative (nested : Option (Reader Json)) (h : skipSpaces cs = '-' :: more) :
    ∃ le : more.length ≤ cs.length, readValueWith nested cs =
      readNumber true more >>= fun n => .ok (n.within le) := by
  obtain ⟨shorter, le, heq⟩ := readValueWith_eq nested h
  refine ⟨shorter.le, ?_⟩
  -- the branches before the one of the minus, in order
  rw [heq, if_neg (by decide), if_neg (by decide), if_neg (by decide), if_pos (by decide)]
  rfl

/-- At a digit a number starts as well, and the digit, its first one, is not taken before. -/
theorem readValueWith_positive (nested : Option (Reader Json)) (h : skipSpaces cs = c :: more)
    (hc : c.isDigit = true) :
    ∃ le : (c :: more).length ≤ cs.length, readValueWith nested cs =
      readNumber false (c :: more) >>= fun n => .ok (n.within le) := by
  obtain ⟨shorter, le, heq⟩ := readValueWith_eq nested h
  refine ⟨le, ?_⟩
  -- a digit is none of the characters that the earlier branches look for
  have hother : ∀ d : Char, d.isDigit = false → (c == d) = false := by
    intro d hd
    rw [beq_eq_false_iff_ne]
    rintro rfl
    rw [hc] at hd
    cases hd
  rw [heq, hother 'n' rfl, hother 't' rfl, hother 'f' rfl, hother '-' rfl]
  simp only [Bool.false_eq_true, if_false, hc, if_true]
  rfl

/-- After a quotation mark it reads a string. -/
theorem readValueWith_quote (nested : Option (Reader Json)) (h : skipSpaces cs = '"' :: more) :
    ∃ shorter : more.length < cs.length, readValueWith nested cs =
      readString more >>= fun s => .ok ⟨.string s.value, s.rest, s.shorter.trans shorter⟩ := by
  obtain ⟨shorter, le, heq⟩ := readValueWith_eq nested h
  refine ⟨shorter, ?_⟩
  rw [heq, if_neg (by decide), if_neg (by decide), if_neg (by decide), if_neg (by decide),
    if_neg (by decide), if_pos (by decide)]
  rfl

/-- A negative number is read as the reader of numbers reads what comes after the minus. -/
theorem reads_negative (h : skipSpaces cs = '-' :: more)
    (hread : Reads (readNumber true more) value rest) :
    Reads (readValueWith nested cs) value rest := by
  obtain ⟨le, heq⟩ := readValueWith_negative nested h
  obtain ⟨_, hread⟩ := hread
  rw [heq, hread, ok_bind]
  exact ⟨_, rfl⟩

/-- A number without a sign is read as the reader of numbers reads it. -/
theorem reads_positive (h : skipSpaces cs = c :: more) (hc : c.isDigit = true)
    (hread : Reads (readNumber false (c :: more)) value rest) :
    Reads (readValueWith nested cs) value rest := by
  obtain ⟨le, heq⟩ := readValueWith_positive nested h hc
  obtain ⟨_, hread⟩ := hread
  rw [heq, hread, ok_bind]
  exact ⟨_, rfl⟩

/-- A string is read back from its quoted text, whatever follows it. -/
theorem reads_quoted {s : String} (h : skipSpaces cs = quoted s ++ rest) :
    Reads (readValueWith nested cs) (.string s) rest := by
  rw [quoted, List.cons_append, List.append_assoc, List.singleton_append] at h
  obtain ⟨shorter, heq⟩ := readValueWith_quote nested h
  obtain ⟨_, hread⟩ := reads_string s rest
  rw [heq, hread, ok_bind]
  exact ⟨_, rfl⟩

theorem isSpace_of_isDigit (h : c.isDigit = true) : isSpace c = false := by
  rw [Bool.eq_false_iff]
  intro hspace
  simp only [isSpace, Bool.or_eq_true, beq_iff_eq] at hspace
  -- none of the four spaces is a digit
  rcases hspace with ((rfl | rfl) | rfl) | rfl <;> exact absurd h (by decide)

/-- A number after spaces is read by its sign and what follows it. -/
theorem reads_signed {sp digits : List Char} (negative : Bool) (hsp : Spaces sp)
    (hdigits : ∃ d more, digits = d :: more ∧ d.isDigit = true)
    (hread : Reads (readNumber negative (digits ++ rest)) value rest) :
    Reads (readValueWith nested (sp ++ ((if negative then ['-'] else []) ++ digits ++ rest)))
      value rest := by
  cases negative with
  | true => exact reads_negative (skipSpaces_append_cons hsp rfl) hread
  | false =>
    obtain ⟨d, more, rfl, hd⟩ := hdigits
    exact reads_positive (skipSpaces_append_cons hsp (isSpace_of_isDigit hd)) hd hread

/-- A finite double has an exact value. -/
theorem exists_exact {x : Float} (hx : x.isFinite = true) :
    ∃ negative m e, Decimal.Exact.ofFloat x = .finite negative m e := by
  change x.toModel.unpack.isFinite = true at hx
  unfold Decimal.Exact.ofFloat
  cases hunpack : x.toModel.unpack with
  | zero sign => exact ⟨_, _, _, rfl⟩
  | finite sign m e hm => exact ⟨_, _, _, rfl⟩
  | _ =>
    rw [hunpack] at hx
    cases hx

/-- A finite double is read back, to the last bit, from the shortest decimal that is written for it.
-/
theorem reads_float {sp : List Char} {x : Float} (hx : x.isFinite = true) (hsp : Spaces sp)
    (hrest : EndsNumber rest) :
    Reads (readValueWith nested (sp ++ (scalar (.float x) ++ rest))) (.float x) rest := by
  obtain ⟨negative, m, e, hexact⟩ := exists_exact hx
  obtain ⟨q, hdenotes, -⟩ := exists_denotes_magnitude hexact
  rw [scalar, if_pos hx, Decimal.Style.write, hexact]
  dsimp only
  rw [String.toList_ofList]
  -- the sign is written before the decimal, and the decimal is read on its own
  exact reads_signed negative hsp hdenotes.starts (reads_magnitude hexact hrest)

/-- An integer is written as a minus, if there is one, and the digits of its magnitude. -/
theorem toList_toString_int (k : Int) :
    (toString k).toList =
      (if decide (k < 0) then ['-'] else []) ++ Nat.toDigits 10 k.natAbs := by
  cases k with
  | ofNat n =>
    show (Nat.repr n).toList = _
    rw [Nat.toList_repr, decide_eq_false (by simp)]
    rfl
  | negSucc n =>
    show ("-" ++ Nat.repr (n + 1)).toList = _
    rw [String.toList_append, Nat.toList_repr, decide_eq_true (Int.negSucc_lt_zero n)]
    rfl

theorem toDigits_starts (n : ℕ) :
    ∃ d more, Nat.toDigits 10 n = d :: more ∧ d.isDigit = true := by
  obtain ⟨hsome, hdigits⟩ := isDigits_toDigits n
  obtain ⟨d, more, h⟩ := List.exists_cons_of_ne_nil hsome
  exact ⟨d, more, h, hdigits d (h ▸ List.mem_cons_self)⟩

/-- An integer of 64 bits, signed or not, is read back from its digits. -/
theorem reads_integer {sp : List Char} {k : Int}
    (hk : -(UInt64.size / 2 : Nat) ≤ k ∧ k < UInt64.size) (hsp : Spaces sp)
    (hrest : EndsNumber rest) :
    Reads (readValueWith nested (sp ++ (scalar (.integer k) ++ rest))) (.integer k) rest := by
  rw [scalar, toList_toString_int]
  refine reads_signed _ hsp (toDigits_starts _) ?_
  rcases lt_or_ge k 0 with hneg | hnonneg
  · -- below zero the magnitude may be 2 ^ 63, above it may be up to 2 ^ 64 - 1
    have hread := reads_toDigits true k.natAbs hrest
      (by rw [if_pos rfl]; omega)
    rwa [if_pos rfl, show -(k.natAbs : ℤ) = k by omega, ← decide_eq_true hneg] at hread
  · have hread := reads_toDigits false k.natAbs hrest
      (by rw [if_neg Bool.false_ne_true]; omega)
    rwa [if_neg Bool.false_ne_true, show (k.natAbs : ℤ) = k by omega,
      ← decide_eq_false hnonneg.not_gt] at hread

/-- A value without parts is read back from its text. -/
theorem reads_scalar {sp : List Char} {depth : Nat} (hvalue : ∀ items, value ≠ .array items)
    (hvalue' : ∀ members, value ≠ .object members) (hfits : Fits depth value) (hsp : Spaces sp)
    (hrest : EndsNumber rest) :
    Reads (readValueWith nested (sp ++ (scalar value ++ rest))) value rest := by
  cases value with
  | null =>
    obtain ⟨shorter, le, heq⟩ := readValueWith_eq nested
      (skipSpaces_append_cons hsp rfl :
        skipSpaces (sp ++ 'n' :: ("ull".toList ++ rest)) = _)
    show Reads (readValueWith nested (sp ++ 'n' :: ("ull".toList ++ rest))) _ _
    rw [heq]
    exact reads_word shorter
  | bool b =>
    cases b with
    | true =>
      obtain ⟨shorter, le, heq⟩ := readValueWith_eq nested
        (skipSpaces_append_cons hsp rfl :
          skipSpaces (sp ++ 't' :: ("rue".toList ++ rest)) = _)
      show Reads (readValueWith nested (sp ++ 't' :: ("rue".toList ++ rest))) _ _
      rw [heq]
      exact reads_word shorter
    | false =>
      obtain ⟨shorter, le, heq⟩ := readValueWith_eq nested
        (skipSpaces_append_cons hsp rfl :
          skipSpaces (sp ++ 'f' :: ("alse".toList ++ rest)) = _)
      show Reads (readValueWith nested (sp ++ 'f' :: ("alse".toList ++ rest))) _ _
      rw [heq]
      exact reads_word shorter
  | integer k =>
    rw [Fits] at hfits
    exact reads_integer hfits hsp hrest
  | float x =>
    rw [Fits] at hfits
    exact reads_float hfits hsp hrest
  | string s => exact reads_quoted (by rw [scalar, skipSpaces_append hsp]; rfl)
  | array items => exact absurd rfl (hvalue items)
  | object members => exact absurd rfl (hvalue' members)

end Scalars

/-! ## Reading arrays and objects -/

section Nested

variable {item : Reader Json} {cs more text rest whole : List Char} {value : Json}

/-- After a bracket the reader of values reads items, each with the reader of what is nested in
them. -/
theorem readValueWith_bracket (item : Reader Json) (h : skipSpaces cs = '[' :: more) :
    ∃ le : more.length ≤ cs.length, readValueWith (some item) cs =
      readItems item more >>= fun p => .ok (p.within le) := by
  obtain ⟨shorter, le, heq⟩ := readValueWith_eq (some item) h
  refine ⟨shorter.le, ?_⟩
  rw [heq, if_neg (by decide), if_neg (by decide), if_neg (by decide), if_neg (by decide),
    if_neg (by decide), if_neg (by decide), if_pos (by decide)]
  dsimp only
  rw [if_pos (by decide)]
  rfl

/-- After a brace it reads members. -/
theorem readValueWith_brace (item : Reader Json) (h : skipSpaces cs = '\x7b' :: more) :
    ∃ le : more.length ≤ cs.length, readValueWith (some item) cs =
      readMembers item more >>= fun p => .ok (p.within le) := by
  obtain ⟨shorter, le, heq⟩ := readValueWith_eq (some item) h
  refine ⟨shorter.le, ?_⟩
  rw [heq, if_neg (by decide), if_neg (by decide), if_neg (by decide), if_neg (by decide),
    if_neg (by decide), if_neg (by decide), if_pos (by decide)]
  dsimp only
  rw [if_neg (by decide)]
  rfl

/-- An array is what its items are read as. -/
theorem reads_array (h : skipSpaces cs = '[' :: more)
    (hread : Reads (readItems item more) value rest) :
    Reads (readValueWith (some item) cs) value rest := by
  obtain ⟨le, heq⟩ := readValueWith_bracket item h
  obtain ⟨_, hread⟩ := hread
  rw [heq, hread, ok_bind]
  exact ⟨_, rfl⟩

/-- An object is what its members are read as. -/
theorem reads_object (h : skipSpaces cs = '\x7b' :: more)
    (hread : Reads (readMembers item more) value rest) :
    Reads (readValueWith (some item) cs) value rest := by
  obtain ⟨le, heq⟩ := readValueWith_brace item h
  obtain ⟨_, hread⟩ := hread
  rw [heq, hread, ok_bind]
  exact ⟨_, rfl⟩

/-- A reader reads a value from every text of it, whatever spaces stand before it. -/
def ReadsForms (item : Reader Json) (value : Json) : Prop :=
  ∀ {sp text rest : List Char}, Spaces sp → Form value text → EndsNumber rest →
    Reads (item (sp ++ (text ++ rest))) value rest

/-- A text does not start with a space or with a bracket that closes an array. -/
def StartsValue (text : List Char) : Prop :=
  ∃ c more, text = c :: more ∧ isSpace c = false ∧ c ≠ ']'

/-- The first character of a value is found behind the spaces before it. -/
theorem StartsValue.skip {sp : List Char} (h : StartsValue text) (hsp : Spaces sp)
    (rest : List Char) :
    ∃ c more, skipSpaces (sp ++ (text ++ rest)) = c :: more ∧ c ≠ ']' := by
  obtain ⟨c, more, rfl, hc, hother⟩ := h
  exact ⟨c, more ++ rest, skipSpaces_append_cons hsp hc, hother⟩

/-- A digit starts a value. -/
theorem startsValue_of_isDigit (h : ∃ d more, text = d :: more ∧ d.isDigit = true) :
    StartsValue text := by
  obtain ⟨d, more, rfl, hd⟩ := h
  refine ⟨d, more, rfl, isSpace_of_isDigit hd, ?_⟩
  rintro rfl
  exact absurd hd (by decide)

/-- A signed number starts a value: by its minus, or by its first digit. -/
theorem startsValue_signed {digits : List Char} (negative : Bool)
    (h : ∃ d more, digits = d :: more ∧ d.isDigit = true) :
    StartsValue ((if negative then ['-'] else []) ++ digits) := by
  cases negative with
  | true => exact ⟨'-', digits, rfl, rfl, by decide⟩
  | false => exact startsValue_of_isDigit h

/-- The text of a value starts with a character of its own. -/
theorem Form.startsValue {depth : Nat} (hfits : Fits depth value) (h : Form value text) :
    StartsValue text := by
  cases value with
  | null =>
    simp only [Form] at h
    exact ⟨'n', _, h, rfl, by decide⟩
  | bool b =>
    simp only [Form] at h
    cases b with
    | true => exact ⟨'t', _, h, rfl, by decide⟩
    | false => exact ⟨'f', _, h, rfl, by decide⟩
  | integer k =>
    simp only [Form, scalar, toList_toString_int] at h
    rw [h]
    exact startsValue_signed _ (toDigits_starts _)
  -- a finite number starts with its sign or a digit
  | float x =>
    simp only [Fits] at hfits
    obtain ⟨negative, m, e, hexact⟩ := exists_exact hfits
    obtain ⟨q, hdenotes, -⟩ := exists_denotes_magnitude hexact
    simp only [Form, scalar, if_pos hfits, Decimal.Style.write, hexact, String.toList_ofList] at h
    rw [h]
    exact startsValue_signed negative hdenotes.starts
  | string s =>
    simp only [Form] at h
    exact ⟨'"', _, h, rfl, by decide⟩
  | array items =>
    simp only [Form] at h
    obtain ⟨body, rfl, -⟩ := h
    exact ⟨'[', body, rfl, rfl, by decide⟩
  | object members =>
    simp only [Form] at h
    obtain ⟨body, rfl, -⟩ := h
    exact ⟨'\x7b', body, rfl, rfl, by decide⟩

/-- A number ends before anything but a digit, a point and the mark of an exponent. -/
theorem endsNumber_cons {c : Char} (hc : c.isDigit = false ∧ c ≠ '.' ∧ c ≠ 'e' ∧ c ≠ 'E')
    (cs : List Char) : EndsNumber (c :: cs) := by
  intro d hd
  cases hd
  exact hc

/-- Spaces before what ends a number end it too. -/
theorem endsNumber_spaces {sp : List Char} (hsp : Spaces sp) (h : EndsNumber cs) :
    EndsNumber (sp ++ cs) := by
  cases sp with
  | nil => exact h
  | cons c sp =>
    refine endsNumber_cons ?_ _
    have hspace := hsp c List.mem_cons_self
    simp only [isSpace, Bool.or_eq_true, beq_iff_eq] at hspace
    rcases hspace with ((rfl | rfl) | rfl) | rfl <;> decide

/-- Items that follow end a number before them. -/
theorem endsNumber_items {items : List Json} (h : ItemsForm items text) (rest : List Char) :
    EndsNumber (text ++ rest) := by
  cases items with
  | nil =>
    rw [ItemsForm] at h
    obtain ⟨sp, hsp, rfl⟩ := h
    rw [List.append_assoc]
    exact endsNumber_spaces hsp (endsNumber_cons (by decide) _)
  | cons item items =>
    rw [ItemsForm] at h
    obtain ⟨sp, text', more', -, -, -, rfl⟩ := h
    exact endsNumber_cons (by decide) _

/-- The closing bracket ends the items, which have been collected backwards. -/
theorem readItemsFrom_close {done : List Json} (hskip : skipSpaces cs = ']' :: rest)
    (h : cs.length ≤ whole.length) :
    Reads (readItemsFrom item done cs h) (.array done.reverse) rest := by
  unfold readItemsFrom
  split <;> rename_i heq <;> rw [hskip] at heq
  · cases heq
  · cases heq
    exact ⟨_, rfl⟩
  · cases heq
  · rename_i hother _
    cases heq
    exact (hother rfl).elim

/-- After a comma the next item is read, whatever comes of it. -/
theorem readItemsFrom_next (done : List Json) {c : Char} {more' : List Char}
    (hskip : skipSpaces cs = ',' :: more) (hnext : skipSpaces more = c :: more') (hc : c ≠ ']')
    (h : cs.length ≤ whole.length) :
    ∃ h' : ∀ p : Parsed Json more, p.rest.length ≤ whole.length, readItemsFrom item done cs h =
      item more >>= fun p => readItemsFrom item (p.value :: done) p.rest (h' p) := by
  have hcomma := length_lt_of_skipSpaces hskip
  refine ⟨fun p => (p.shorter.trans hcomma).le.trans h, ?_⟩
  -- the right side has the reader in it too and stays as it is
  conv_lhs => unfold readItemsFrom
  split <;> rename_i heq <;> rw [hskip] at heq
  · cases heq
  · cases heq
  · cases heq
    split <;> rename_i heq' <;> rw [hnext] at heq'
    · cases heq'
    · cases heq'
      -- a bracket after a comma is a fault, but none stands here
      exact absurd rfl hc
    · cases item more <;> rfl
  · rename_i hother
    cases heq
    exact (hother rfl).elim

/-- Items that follow are read to the end of the array. -/
theorem reads_itemsFrom (done : List Json) {items : List Json}
    (hitems : ∀ i ∈ items, ReadsForms item i)
    (hstarts : ∀ i ∈ items, ∀ text, Form i text → StartsValue text) (hform : ItemsForm items text)
    (h : (text ++ rest).length ≤ whole.length) :
    Reads (readItemsFrom item done (text ++ rest) h) (.array (done.reverse ++ items)) rest := by
  induction items generalizing done text with
  | nil =>
    rw [ItemsForm] at hform
    obtain ⟨sp, hsp, rfl⟩ := hform
    rw [List.append_nil]
    refine readItemsFrom_close ?_ h
    rw [List.append_assoc]
    exact skipSpaces_append_cons hsp rfl
  | cons first items ih =>
    rw [ItemsForm] at hform
    obtain ⟨sp, text, more, hsp, hfirst, hmore, rfl⟩ := hform
    -- the item after the comma starts with no bracket, so the reader goes on to it
    obtain ⟨c, text', hskip, hc⟩ :=
      (hstarts first List.mem_cons_self text hfirst).skip hsp (more ++ rest)
    obtain ⟨shorter, hread⟩ :=
      hitems first List.mem_cons_self hsp hfirst (endsNumber_items hmore rest)
    simp only [List.cons_append, List.append_assoc] at h ⊢
    obtain ⟨h', heq⟩ := readItemsFrom_next done (skipSpaces_cons rfl) hskip hc h
    rw [heq, hread, ok_bind]
    -- the rest is read with this item among those that are done
    have hrest := ih (first :: done) (fun i hi => hitems i (List.mem_cons_of_mem _ hi))
      (fun i hi => hstarts i (List.mem_cons_of_mem _ hi)) hmore (h' ⟨first, _, shorter⟩)
    rwa [List.reverse_cons, List.append_assoc, List.singleton_append] at hrest

/-- A bracket that closes at once leaves an array with nothing in it. -/
theorem readItems_close (hskip : skipSpaces cs = ']' :: rest) :
    Reads (readItems item cs) (.array []) rest := by
  unfold readItems
  split
  · rename_i heq
    rw [hskip] at heq
    cases heq
  · rename_i heq
    rw [hskip] at heq
    cases heq
    exact ⟨_, rfl⟩
  · rename_i hother
    exact (hother rest hskip).elim

/-- At anything else the first item is read, whatever comes of it. -/
theorem readItems_first (item : Reader Json) {c : Char} (hskip : skipSpaces cs = c :: more)
    (hc : c ≠ ']') : readItems item cs =
      item cs >>= fun p => readItemsFrom item [p.value] p.rest (Nat.le_of_lt p.shorter) := by
  unfold readItems
  split
  · rename_i heq
    rw [hskip] at heq
    cases heq
  · rename_i heq
    rw [hskip] at heq
    cases heq
    exact absurd rfl hc
  · cases item cs <;> rfl

/-- The items of an array are read after its opening bracket. -/
theorem reads_items {items : List Json} (hitems : ∀ i ∈ items, ReadsForms item i)
    (hstarts : ∀ i ∈ items, ∀ text, Form i text → StartsValue text)
    (hform : items = [] ∧ ItemsForm items text ∨ ItemsForm items (',' :: text)) :
    Reads (readItems item (text ++ rest)) (.array items) rest := by
  rcases hform with ⟨rfl, hform⟩ | hform
  · rw [ItemsForm] at hform
    obtain ⟨sp, hsp, rfl⟩ := hform
    refine readItems_close ?_
    rw [List.append_assoc]
    exact skipSpaces_append_cons hsp rfl
  · cases items with
    | nil =>
      -- a comma is neither a space nor the closing bracket
      rw [ItemsForm] at hform
      obtain ⟨sp, hsp, heq⟩ := hform
      have hskip : skipSpaces (sp ++ [']']) = [']'] := skipSpaces_append_cons hsp rfl
      rw [← heq, skipSpaces_cons rfl] at hskip
      cases hskip
    | cons first items =>
      rw [ItemsForm] at hform
      obtain ⟨sp, text, more, hsp, hfirst, hmore, heq⟩ := hform
      obtain rfl := (List.cons.inj heq).2
      obtain ⟨c, text', hskip, hc⟩ :=
        (hstarts first List.mem_cons_self text hfirst).skip hsp (more ++ rest)
      obtain ⟨shorter, hread⟩ :=
        hitems first List.mem_cons_self hsp hfirst (endsNumber_items hmore rest)
      rw [List.append_assoc, List.append_assoc, readItems_first item hskip hc, hread, ok_bind]
      exact reads_itemsFrom [first] (fun i hi => hitems i (List.mem_cons_of_mem _ hi))
        (fun i hi => hstarts i (List.mem_cons_of_mem _ hi)) hmore shorter.le

/-- After the name of a member and a colon its value is read. -/
theorem readMember_colon (item : Reader Json) {name : String} (hname : Reads (readString cs) name more)
    (hcolon : skipSpaces more = ':' :: rest) :
    ∃ shorter : rest.length < cs.length, readMember item cs =
      item rest >>= fun v => .ok ⟨(name, v.value), v.rest, v.shorter.trans shorter⟩ := by
  obtain ⟨shorter, hname⟩ := hname
  refine ⟨(length_lt_of_skipSpaces hcolon).trans shorter, ?_⟩
  rw [readMember, hname, ok_bind]
  dsimp only
  split
  · rename_i heq
    rw [hcolon] at heq
    cases heq
  · rename_i heq
    rw [hcolon] at heq
    cases heq
    rfl
  · -- neither at the end nor at anything but the colon
    rename_i hother heq
    rw [hcolon] at heq
    cases heq
    exact (hother rfl).elim

/-- A member is read from its quoted name, a colon and a text that its value is read from. -/
theorem reads_member (name : String) (hread : Reads (item more) value rest) :
    Reads (readMember item (name.toList.flatMap escape ++ '"' :: ':' :: more)) (name, value)
      rest := by
  obtain ⟨shorter, heq⟩ := readMember_colon item (reads_string name (':' :: more))
    (skipSpaces_cons rfl)
  obtain ⟨_, hread⟩ := hread
  rw [heq, hread, ok_bind]
  exact ⟨_, rfl⟩

/-- The closing brace ends the members, which have been collected backwards. -/
theorem readMembersFrom_close {done : List (String × Json)}
    (hskip : skipSpaces cs = '\x7d' :: rest) (h : cs.length ≤ whole.length) :
    Reads (readMembersFrom item done cs h) (.object done.reverse) rest := by
  unfold readMembersFrom
  split <;> rename_i heq <;> rw [hskip] at heq
  · cases heq
  · cases heq
    exact ⟨_, rfl⟩
  · cases heq
  · rename_i hother _
    cases heq
    exact (hother rfl).elim

/-- After a comma the next member is read, whatever comes of it. -/
theorem readMembersFrom_next (done : List (String × Json)) {more' : List Char}
    (hskip : skipSpaces cs = ',' :: more) (hnext : skipSpaces more = '"' :: more')
    (h : cs.length ≤ whole.length) :
    ∃ h' : ∀ p : Parsed (String × Json) more', p.rest.length ≤ whole.length,
      readMembersFrom item done cs h = readMember item more' >>= fun p =>
        readMembersFrom item (p.value :: done) p.rest (h' p) := by
  have hcomma := length_lt_of_skipSpaces hskip
  have hquote := length_lt_of_skipSpaces hnext
  refine ⟨fun p => (p.shorter.trans (hquote.trans hcomma)).le.trans h, ?_⟩
  conv_lhs => unfold readMembersFrom
  split <;> rename_i heq <;> rw [hskip] at heq
  · cases heq
  · cases heq
  · cases heq
    split <;> rename_i heq' <;> rw [hnext] at heq'
    · cases heq'
    · cases heq'
      cases readMember item more' <;> rfl
    · cases heq'
    · rename_i hother _
      cases heq'
      exact (hother rfl).elim
  · rename_i hother
    cases heq
    exact (hother rfl).elim

/-- Members that follow end a number before them. -/
theorem endsNumber_members {members : List (String × Json)} (h : MembersForm members text)
    (rest : List Char) : EndsNumber (text ++ rest) := by
  cases members with
  | nil =>
    rw [MembersForm] at h
    obtain ⟨sp, hsp, rfl⟩ := h
    rw [List.append_assoc]
    exact endsNumber_spaces hsp (endsNumber_cons (by decide) _)
  | cons member members =>
    obtain ⟨name, value⟩ := member
    rw [MembersForm] at h
    obtain ⟨sp, sp', text', more', -, -, -, -, rfl⟩ := h
    exact endsNumber_cons (by decide) _

/-- Members that follow are read to the end of the object. -/
theorem reads_membersFrom (done : List (String × Json)) {members : List (String × Json)}
    (hmembers : ∀ m ∈ members, ReadsForms item m.2) (hform : MembersForm members text)
    (h : (text ++ rest).length ≤ whole.length) :
    Reads (readMembersFrom item done (text ++ rest) h) (.object (done.reverse ++ members))
      rest := by
  induction members generalizing done text with
  | nil =>
    rw [MembersForm] at hform
    obtain ⟨sp, hsp, rfl⟩ := hform
    rw [List.append_nil]
    refine readMembersFrom_close ?_ h
    rw [List.append_assoc]
    exact skipSpaces_append_cons hsp rfl
  | cons first members ih =>
    obtain ⟨name, value⟩ := first
    rw [MembersForm] at hform
    obtain ⟨sp, sp', text, more, hsp, hsp', hfirst, hmore, rfl⟩ := hform
    obtain ⟨shorter, hread⟩ := reads_member name <|
      hmembers (name, value) List.mem_cons_self hsp' hfirst (endsNumber_members hmore rest)
    simp only [quoted, List.cons_append, List.append_assoc, List.nil_append] at h ⊢
    obtain ⟨h', heq⟩ := readMembersFrom_next done (skipSpaces_cons rfl)
      (skipSpaces_append_cons hsp rfl) h
    rw [heq, hread, ok_bind]
    -- the member is pushed in front of those that are done
    have hrest := ih ((name, value) :: done)
      (fun m hm => hmembers m (List.mem_cons_of_mem _ hm)) hmore (h' ⟨(name, value), _, shorter⟩)
    rwa [List.reverse_cons, List.append_assoc, List.singleton_append] at hrest

/-- A brace that closes at once leaves an object with nothing in it. -/
theorem readMembers_close (hskip : skipSpaces cs = '\x7d' :: rest) :
    Reads (readMembers item cs) (.object []) rest := by
  unfold readMembers
  split <;> rename_i heq <;> rw [hskip] at heq
  · cases heq
  · cases heq
    exact ⟨_, rfl⟩
  · cases heq
  · rename_i hother _
    cases heq
    exact (hother rfl).elim

/-- At a quotation mark the first member is read, whatever comes of it. -/
theorem readMembers_first (item : Reader Json) (hskip : skipSpaces cs = '"' :: more) :
    ∃ h : ∀ p : Parsed (String × Json) more, p.rest.length ≤ cs.length,
      readMembers item cs = readMember item more >>= fun p =>
        readMembersFrom item [p.value] p.rest (h p) := by
  have hquote := length_lt_of_skipSpaces hskip
  refine ⟨fun p => (p.shorter.trans hquote).le, ?_⟩
  unfold readMembers
  split <;> rename_i heq <;> rw [hskip] at heq
  · cases heq
  · cases heq
  · cases heq
    cases readMember item more <;> rfl
  · rename_i hother
    cases heq
    exact (hother rfl).elim

/-- The members of an object are read after its opening brace. -/
theorem reads_members {members : List (String × Json)}
    (hmembers : ∀ m ∈ members, ReadsForms item m.2)
    (hform : members = [] ∧ MembersForm members text ∨ MembersForm members (',' :: text)) :
    Reads (readMembers item (text ++ rest)) (.object members) rest := by
  rcases hform with ⟨rfl, hform⟩ | hform
  · rw [MembersForm] at hform
    obtain ⟨sp, hsp, rfl⟩ := hform
    refine readMembers_close ?_
    rw [List.append_assoc]
    exact skipSpaces_append_cons hsp rfl
  · cases members with
    | nil =>
      -- a comma is neither a space nor the closing brace
      rw [MembersForm] at hform
      obtain ⟨sp, hsp, heq⟩ := hform
      have hskip : skipSpaces (sp ++ ['\x7d']) = ['\x7d'] := skipSpaces_append_cons hsp rfl
      rw [← heq, skipSpaces_cons rfl] at hskip
      cases hskip
    | cons first members =>
      obtain ⟨name, value⟩ := first
      rw [MembersForm] at hform
      obtain ⟨sp, sp', text, more, hsp, hsp', hfirst, hmore, heq⟩ := hform
      obtain rfl := (List.cons.inj heq).2
      obtain ⟨shorter, hread⟩ := reads_member name <|
        hmembers (name, value) List.mem_cons_self hsp' hfirst (endsNumber_members hmore rest)
      -- the comma that the first member does not have is gone, and its name is quoted
      have hparts : sp ++ (quoted name ++ ':' :: (sp' ++ (text ++ more))) ++ rest =
          sp ++ '"' :: (name.toList.flatMap escape ++ '"' :: ':' ::
            (sp' ++ (text ++ (more ++ rest)))) := by simp [quoted]
      obtain ⟨h, heq⟩ := readMembers_first item (skipSpaces_append_cons hsp rfl)
      rw [hparts, heq, hread, ok_bind]
      exact reads_membersFrom [(name, value)]
        (fun m hm => hmembers m (List.mem_cons_of_mem _ hm)) hmore (h ⟨(name, value), _, shorter⟩)

end Nested

/-! ## Reading values -/

/-- A value that fits is read from each of its texts. -/
theorem readsForms_readValue {depth : Nat} {value : Json} (hfits : Fits depth value) :
    ReadsForms (readValue depth) value := by
  intro sp text rest hsp hform hrest
  induction depth generalizing value sp text rest with
  | zero =>
    -- no level is left, so there are no parts to read
    cases value with
    | array items => exact hfits.elim
    | object members => exact hfits.elim
    | _ =>
      simp only [Form] at hform
      rw [hform]
      exact reads_scalar nofun nofun hfits hsp hrest
  | succ depth ih =>
    cases value with
    | array items =>
      rw [Fits] at hfits
      rw [Form] at hform
      obtain ⟨body, rfl, hbody⟩ := hform
      -- the items are read with the reader of one level less, which the induction is about
      refine reads_array (skipSpaces_append_cons hsp rfl) ?_
      exact reads_items (fun i hi _ _ _ => ih (hfits i hi))
        (fun i hi text h => h.startsValue (hfits i hi)) hbody
    | object members =>
      rw [Fits] at hfits
      rw [Form] at hform
      obtain ⟨body, rfl, hbody⟩ := hform
      exact reads_object (skipSpaces_append_cons hsp rfl)
        (reads_members (fun m hm _ _ _ => ih (hfits m hm)) hbody)
    | _ =>
      simp only [Form] at hform
      rw [hform]
      exact reads_scalar nofun nofun hfits hsp hrest

/-- A value that fits is the first value of a text of it, and nothing is left. -/
theorem readFirst_form {value : Json} {text : List Char} (hfits : Fits deepest value)
    (h : Form value text) : readFirst text = .ok (value, []) := by
  have hreads : Reads (readValue deepest ([] ++ (text ++ []))) value [] :=
    readsForms_readValue hfits spaces_nil h nofun
  rw [List.nil_append, List.append_nil] at hreads
  obtain ⟨_, hread⟩ := hreads
  rw [readFirst, hread]
  rfl

/-- A value that fits is read from each of its texts. -/
theorem read_form {value : Json} {text : List Char} (hfits : Fits deepest value)
    (h : Form value text) : read text = .ok value := by
  rw [read, readFirst_form hfits h]
  rfl

/-- A value on one line is read back. -/
theorem read_compact {value : Json} (hfits : Fits deepest value) :
    read value.compact.toList = .ok value := by
  rw [compact, String.toList_ofList]
  exact read_form hfits (form_oneLine value)

/-- A value over several lines is read back. -/
theorem read_pretty {value : Json} (indent : Nat) (hfits : Fits deepest value) :
    read (value.pretty indent).toList = .ok value := by
  rw [pretty, String.toList_ofList]
  exact read_form hfits (form_spread indent 0 value)

end SpeechTranscript.Json
